import CegChain.Contract.Ranking

/-!
# Well formed candidate lists

The lists are sorted and have each owner and each node once (`Ranked`), are no longer
than the configuration allows, and every candidate on them has a row for its rewards.

The rows are read at the beginning of a call and written at its end.  `extract` pays in
between, and an account that is paid can have a candidate listed before the payment
returns; the rows that are written then know nothing of it.  A caller may also hide a part
of an address from the host, or name a candidate by what is not a string.  Otherwise the
lists are well formed in every state (`wellFormed_states`).
-/

namespace CegChain.Dpos

open Layers Register Totals

variable {host : Host} {receive : Receive} {msg : Msg} {s s₁ s₂ : Run} {w w₁ : World}
  {cfg : Config} {p p' : Pending} {r r' : Register} {kind : Kind} {role : Role}

/-! ## Who is listed -/

/-- The list does not grow. -/
structure Stays (l l' : List Candidate) : Prop where
  length : l'.length ≤ l.length
  listed : ∀ row ∈ l', ∃ row' ∈ l, row'.address = row.address

theorem Stays.refl (l : List Candidate) : Stays l l :=
  ⟨le_rfl, fun row hrow => ⟨row, hrow, rfl⟩⟩

theorem stays_save {role' : Role} {candidates : List Candidate} {update : Bool}
    (hrole : role ≠ .committee) (hrole' : role' ≠ .committee)
    (hstays : Stays (r.cands role) candidates) :
    Stays (r.cands role') ((r.save cfg role candidates update).cands role') := by
  rw [cands_save hrole hrole']
  split
  · rename_i heq
    rw [heq]
    exact hstays
  · exact .refl _

theorem stays_of_split {a b a' b' : List Candidate} {x x' : Candidate} (hrest : a ++ b = a' ++ b')
    (hx : x'.address = x.address) : Stays (a ++ x :: b) (a' ++ x' :: b') := by
  refine ⟨?_, fun row hrow => ?_⟩
  · have hlength := congrArg List.length hrest
    simp only [List.length_append, List.length_cons] at hlength ⊢
    omega
  · rw [List.perm_middle.mem_iff, List.mem_cons] at hrow
    rcases hrow with rfl | hrow
    · exact ⟨x, List.mem_append_right _ (List.mem_cons_self ..), hx.symm⟩
    · rw [← hrest] at hrow
      refine ⟨row, ?_, rfl⟩
      rw [List.perm_middle.mem_iff]
      exact List.mem_cons_of_mem _ hrow

theorem stays_restake {role' : Role} {found : Candidate} (stake : ℤ) (hrole : role ≠ .committee)
    (hrole' : role' ≠ .committee) (hsorted : Sorted (r.cands role))
    (hfound : r.find role found.address = some found) :
    Stays (r.cands role') ((r.restake cfg role found stake).cands role') := by
  obtain ⟨a, b, a', b', update, hsplit, hrest, -, hrestake, -⟩ :=
    exists_restake cfg stake hsorted hfound
  rw [hrestake]
  refine stays_save hrole hrole' ?_
  rw [hsplit]
  exact stays_of_split hrest rfl

/-- A list grows only when a candidate is added, and then not beyond its limit. -/
theorem stays_move (hmove : Move cfg kind r p r' p') (hordered : Ordered r)
    (hrole : role ≠ .committee) :
    Stays (r.cands role) (r'.cands role) ∨
      ((kind = .pledge ∨ kind = .stray) ∧
        (r'.cands role).length ≤ max (r.cands role).length (maxSize role cfg)) := by
  cases hmove with
  | papers | config | pass | withdraw | drop | forget => exact .inl (.refl _)
  | @enlist _ _ _ proposals role' row saved pledge hrole' hkind hnew hset hstake hnode hsaved =>
      refine .inr ⟨hkind.imp_left And.left, ?_⟩
      rw [cands_save hrole' hrole]
      split
      · rename_i heq
        rw [heq, hsaved, List.length_take]
        omega
      · exact le_max_left _ _
  | @raise _ _ proposals role' found amount old hrole' hfound hold hset =>
      exact .inl (stays_restake (r := { r with proposals := proposals }) _ hrole' hrole
        (hordered.sorted role' hrole') hfound)
  | @leave _ _ proposals role' address hrole' hlisted hset =>
      obtain ⟨found, rfl, hfound⟩ := exists_of_find_ne_none hlisted
      obtain ⟨a, b, hsplit, hplace⟩ := split_of_find hfound
      have hsorted := hordered.sorted role' hrole'
      rw [hsplit] at hsorted
      refine .inl (stays_save (r := { r with proposals := proposals }) hrole' hrole ?_)
      rw [show Register.cands role' { r with proposals := proposals } = a ++ found :: b
        from hsplit, hplace, hsplit, sortRows_eraseIdx hsorted]
      refine ⟨by simp, fun row hrow => ⟨row, ?_, rfl⟩⟩
      exact ((List.Sublist.refl a).append (List.sublist_cons_self found b)).subset hrow
  | @vote _ _ role' voter found amount votes hrole' hfound _ =>
      exact .inl (stays_restake
        (r := { r with voters := r.voters.insert (voterKey voter role' found.address) votes }) _
        hrole' hrole (hordered.sorted role' hrole') hfound)
  | settle hrole' hfound =>
      exact .inl (stays_restake _ hrole' hrole (hordered.sorted _ hrole') hfound)
  | @seat _ _ proposals found node hfound hnode hsame =>
      obtain ⟨a, b, hsplit, hplace⟩ := split_of_find hfound
      refine .inl (stays_save (r := { r with proposals := proposals }) nofun hrole ?_)
      rw [show Register.cands .validator { r with proposals := proposals } =
        a ++ found :: b from hsplit, hplace, show r.valCands = a ++ found :: b from hsplit,
        List.set_append_right _ _ le_rfl, Nat.sub_self, List.set_cons_zero]
      exact stays_of_split rfl rfl

/-- The methods that may list a candidate. -/
def Method.lists : Method → Bool
  | .append _ => true
  | .approve .apply _ _ => true
  | _ => false

theorem ne_pledge_of_makes {method : Method} (hmethod : method.lists = false)
    (hmakes : method.Makes kind) : kind ≠ .pledge := by
  rintro rfl
  unfold Method.Makes at hmakes
  split at hmakes
  case h_1 | h_3 => simp_all [Method.lists]
  all_goals simp at hmakes

/-- The entries of the list of `extract` are strings. -/
def Method.Strings : Method → Prop
  | .extract (some list) => ∀ payee ∈ list, payee.isString
  | _ => True

/-- The method lists nobody, and its addresses and names are what they seem. -/
structure Method.Quiet (method : Method) : Prop where
  lists : method.lists = false
  plain : method.Plain
  strings : method.Strings

/-- Nobody is listed who is not on these lists, and the lists do not grow. -/
def stayingIn (before : Register) : Invariant where
  holds r _ := Ranked r ∧ ∀ role, role ≠ .committee → Stays (before.cands role) (r.cands role)
  good _ := True
  allowed kind := kind ≠ .pledge ∧ kind ≠ .stray
  other := ⟨Kind.other_ne_pledge, Kind.other_ne_stray⟩
  config _ := trivial
  move := by
    rintro cfg kind r p r' p' - ⟨hpledge, hstray⟩ hmove ⟨hranked, hstays⟩
    refine ⟨ranked_move hmove hstray hranked, fun role hrole => ?_⟩
    have hstep := (stays_move hmove hranked.toOrdered hrole).resolve_right fun h =>
      h.1.elim hpledge hstray
    have hbefore := hstays role hrole
    refine ⟨hstep.length.trans hbefore.length, fun row hrow => ?_⟩
    obtain ⟨row₁, hrow₁, heq₁⟩ := hstep.listed row hrow
    obtain ⟨row₂, hrow₂, heq₂⟩ := hbefore.listed row₁ hrow₁
    exact ⟨row₂, hrow₂, heq₂.trans heq₁⟩

theorem allows_stayingIn {before : Register} {method : Method} (hquiet : method.Quiet) :
    (stayingIn before).Allows method :=
  fun _ hmakes => ⟨ne_pledge_of_makes hquiet.lists hmakes, ne_stray_of_makes hquiet.plain hmakes⟩

/-- The accounts that are paid list nobody. -/
def ReceiveStays (receive : Receive) : Prop :=
  ∀ before, (stayingIn before).Receives receive

theorem receiveStays_react (host : Host) {reactions : ℕ → Reaction}
    (hreactions : ∀ i, (reactions i).All Method.Quiet) :
    ReceiveStays fun i => react host (reactions i) := by
  intro before i w w' p hreact
  exact Invariant.react (reactions i)
    ((hreactions i).imp fun _ h => allows_stayingIn h) hreact

/-! ## Rows for rewards -/

theorem mem_credit {dist dist' : Dists} {name address : Address} {amount : ℤ}
    (hcredit : credit dist name amount = some dist') (hmem : address ∈ dist) :
    address ∈ dist' := by
  obtain ⟨entry, -, hcredit⟩ := of_bind hcredit
  obtain ⟨reward, -, hcredit⟩ := of_bind hcredit
  obtain rfl := Option.some.inj hcredit
  exact (AList.mem_insert _).mpr (.inr hmem)

theorem mem_distribute {nodes : List Candidate} {allReward : ℤ} {dist dist' : Dists} {done : Bool}
    {address : Address} (hdist : distribute nodes allReward dist = some (done, dist'))
    (hmem : address ∈ dist) : address ∈ dist' := by
  unfold distribute at hdist
  split at hdist
  · cases hdist
    exact hmem
  · obtain ⟨reward, -, hdist⟩ := of_bind hdist
    obtain ⟨dist₁, hfold, hdist⟩ := of_bind hdist
    obtain ⟨left, -, hdist⟩ := of_bind hdist
    obtain ⟨dist₂, hcredit, hdist⟩ := of_bind hdist
    cases hdist
    exact mem_credit hcredit
      (Runs.foldlM_invariant (p := (address ∈ ·))
        (fun h hcredit => mem_credit hcredit h) hmem hfold)

theorem mem_calculate {elect : Elect} {reward : ℤ} {valDist kolDist : Dists} {address : Address}
    (hcalc : calculate cfg elect reward = some (valDist, kolDist)) :
    (address ∈ elect.valDist → address ∈ valDist) ∧
      (address ∈ elect.kolDist → address ∈ kolDist) := by
  obtain ⟨-, -, -, -, -, -, hdist₁, -, hdist₂, -, hdist₃, -, hdist₄, -, hcredit⟩ :=
    calculated_of_calculate hcalc
  exact ⟨fun h => mem_credit hcredit (mem_distribute hdist₄ (mem_distribute hdist₃ h)),
    fun h => mem_distribute hdist₂ (mem_distribute hdist₁ h)⟩

/-- The rows of a role in the metadata. -/
def World.dist (role : Role) (w : World) : Dists :=
  if role = .validator then w.storage.valDist else w.storage.kolDist

/-- Every candidate on the lists has a row for its rewards. -/
def World.Rowed (w : World) : Prop :=
  ∀ role, role ≠ .committee → ∀ row ∈ w.register.cands role, row.address ∈ w.dist role

/-- The rows that a call will leave. -/
def Run.leaves (role : Role) (s : Run) : Dists :=
  if s.distributed then s.dist role else s.world.dist role

/-- The call will leave a row for every candidate. -/
def Run.Rowed (s : Run) : Prop :=
  ∀ role, role ≠ .committee → ∀ row ∈ s.world.register.cands role, row.address ∈ s.leaves role

/-- The rows in `elect` are those that the call will leave. -/
def Run.Fresh (s : Run) : Prop :=
  ∀ role, s.leaves role = s.dist role

theorem dist_saveDists (role : Role) (call : Call) (s : Run) :
    ((saveDists s).log call).dist role = s.leaves role := by
  unfold saveDists Run.leaves
  split
  · cases role <;> rfl
  · rfl

theorem rowed_saveDists (call : Call) : ((saveDists s).log call).Rowed ↔ s.Rowed := by
  unfold World.Rowed Run.Rowed
  simp only [register_saveDists, dist_saveDists]

theorem rowed_of_not_distributed (hdistributed : s.distributed = false) :
    s.Rowed ↔ s.world.Rowed := by
  unfold World.Rowed Run.Rowed Run.leaves
  simp [hdistributed]

/-- The rule for what lists nobody and deletes no row. -/
theorem Run.Rowed.mono (hrowed : s.Rowed)
    (hlisted : ∀ role, role ≠ .committee →
      Stays (s.world.register.cands role) (s₁.world.register.cands role))
    (hleaves : ∀ role address, address ∈ s.leaves role → address ∈ s₁.leaves role) :
    s₁.Rowed := by
  intro role hrole row hrow
  obtain ⟨row', hrow', heq⟩ := (hlisted role hrole).listed row hrow
  rw [← heq]
  exact hleaves role _ (hrowed role hrole row' hrow')

theorem fresh_electInit (hdistributed : s.distributed = false) :
    (electInit s).Fresh ∧ ∀ role, (electInit s).leaves role = s.leaves role := by
  have hleaves : ∀ role, (electInit s).leaves role = s.world.dist role := by
    intro role
    rw [Run.leaves, show (electInit s).distributed = false from hdistributed]
    rfl
  refine ⟨fun role => (hleaves role).trans ?_, fun role => (hleaves role).trans ?_⟩
  · cases role <;> rfl
  · rw [Run.leaves, hdistributed]
    rfl

theorem fresh_rewardDistribution (hfresh : s.Fresh) (hdist : rewardDistribution s = some s₁) :
    s₁.Fresh ∧ ∀ role address, address ∈ s.leaves role → address ∈ s₁.leaves role := by
  obtain ⟨reward, -, hdist⟩ := of_bind hdist
  split at hdist
  · obtain rfl := Option.some.inj hdist
    exact ⟨hfresh, fun _ _ h => h⟩
  · obtain ⟨⟨valDist, kolDist⟩, hcalc, hdist⟩ := of_bind hdist
    obtain rfl := Option.some.inj hdist
    refine ⟨fun role => rfl, fun role address hmem => ?_⟩
    rw [hfresh role] at hmem
    obtain ⟨hval, hkol⟩ := @mem_calculate _ _ _ _ _ address hcalc
    unfold Run.dist at hmem
    split at hmem
    · rename_i hrole
      subst hrole
      exact hval hmem
    · rename_i hrole
      have hkol' := hkol hmem
      rw [Run.leaves, if_pos rfl, Run.dist, if_neg hrole]
      exact hkol'

/-- A new candidate has a row. -/
theorem mem_addDist (role : Role) (address : Address) (proposal : Proposal) (hfresh : s.Fresh) :
    (∀ role' address', address' ∈ s.leaves role' →
      address' ∈ (addDist role address proposal s).leaves role') ∧
    address ∈ (addDist role address proposal s).leaves role := by
  unfold addDist
  split
  · rename_i entry hlookup
    refine ⟨fun _ _ h => h, ?_⟩
    rw [hfresh role]
    exact AList.lookup_isSome.mp (hlookup ▸ rfl)
  · have hset (role' : Role) (dist : Dists) :
        (s.setDist role dist).leaves role' =
          if (role' = .validator ↔ role = .validator) then dist else s.dist role' := by
      cases role <;> cases role' <;> rfl
    refine ⟨fun role' address' hmem => ?_, ?_⟩
    · rw [hset]
      split
      · rename_i hiff
        rw [hfresh role'] at hmem
        refine (AList.mem_insert _).mpr (.inr ?_)
        unfold Run.dist at hmem ⊢
        simp only [hiff] at hmem
        exact hmem
      · rwa [hfresh role'] at hmem
    · rw [hset, if_pos Iff.rfl]
      exact (AList.mem_insert _).mpr (.inl rfl)

theorem leaves_saveElection (role role' : Role) (sorted saved : List Candidate) (update : Bool)
    (s : Run) : (saveElection role sorted saved update s).leaves role' = s.leaves role' := by
  unfold Run.leaves
  cases role <;> cases role' <;> cases update <;> rfl

theorem rowed_addCandidates {address : Address} {proposal : Proposal} {maxSize : ℕ}
    (hrole : role ≠ .committee) (hread : s.Read) (hfresh : s.Fresh) (hrowed : s.Rowed)
    (hadd : addCandidates role address proposal maxSize s = some s₁) : s₁.Rowed := by
  obtain ⟨pledge, -, hadd⟩ := of_bind hadd
  obtain ⟨stake, -, hadd⟩ := of_bind hadd
  split at hadd
  · obtain rfl := Option.some.inj hadd
    exact hrowed
  · obtain ⟨s₂, hdist, hadd⟩ := of_bind hadd
    obtain ⟨-, hadd⟩ := of_assert hadd
    obtain rfl := Option.some.inj hadd
    obtain ⟨hfresh₂, hmono⟩ := fresh_rewardDistribution hfresh hdist
    obtain ⟨hmono', hmem⟩ := mem_addDist role address proposal hfresh₂
    intro role' hrole' row hrow
    rw [register_saveElection, cands_save hrole hrole', register_addDist] at hrow
    rw [leaves_saveElection]
    have hold : ∀ row ∈ s.world.register.cands role',
        row.address ∈ (addDist role address proposal s₂).leaves role' :=
      fun row hrow => hmono' role' _ (hmono role' _ (hrowed role' hrole' row hrow))
    split at hrow
    · rename_i heq
      subst heq
      have hsorted := (perm_sortRows _).mem_iff.mp (List.mem_of_mem_take hrow)
      rcases List.mem_append.mp hsorted with hrow | hrow
      · rw [read_rewardDistribution hread hdist role', register_rewardDistribution hdist] at hrow
        exact hold row hrow
      · obtain rfl := List.mem_singleton.mp hrow
        exact hmem
    · rw [register_rewardDistribution hdist] at hrow
      exact hold row hrow

theorem leaves_deleteCandidate {address : Address} (hfresh : s.Fresh)
    (hdelete : deleteCandidate role address s = some s₁) :
    ∀ role' address', address' ∈ s.leaves role' → address' ∈ s₁.leaves role' := by
  unfold deleteCandidate at hdelete
  split at hdelete
  · obtain ⟨s₂, hdist, hdelete⟩ := of_bind hdelete
    obtain rfl := Option.some.inj hdelete
    intro role' address' hmem
    rw [leaves_saveElection]
    exact (fresh_rewardDistribution hfresh hdist).2 role' address' hmem
  · obtain rfl := Option.some.inj hdelete
    exact fun _ _ h => h

theorem leaves_updateStake {found : Candidate} {formalSize amount : ℤ} (hfresh : s.Fresh)
    (hupdate : updateStake role found formalSize amount s = some s₁) :
    ∀ role' address', address' ∈ s.leaves role' → address' ∈ s₁.leaves role' := by
  obtain ⟨stake, -, hupdate⟩ := of_bind hupdate
  dsimp only at hupdate
  generalize hsorted : sortRows _ = sorted at hupdate
  have hsaved (role' : Role) :
      ((s.setCandidates role sorted).saveCandidates role sorted).leaves role' = s.leaves role' := by
    unfold Run.leaves
    cases role <;> cases role' <;> rfl
  have hfresh' : ((s.setCandidates role sorted).saveCandidates role sorted).Fresh := by
    intro role'
    rw [hsaved, hfresh role']
    cases role <;> cases role' <;> rfl
  split at hupdate
  · obtain ⟨s₂, hdist, hupdate⟩ := of_bind hupdate
    intro role' address' hmem
    rw [← hsaved] at hmem
    have hmem₂ := (fresh_rewardDistribution hfresh' hdist).2 role' address' hmem
    split at hupdate
    · obtain rfl := Option.some.inj hupdate
      exact hmem₂
    · obtain rfl := Option.some.inj hupdate
      exact hmem₂
  · obtain rfl := Option.some.inj hupdate
    intro role' address' hmem
    rwa [hsaved]

/-! ## Methods without payments -/

/-- The rule for a method that lists nobody. -/
theorem rowed_of_move (hmove : Move cfg .other s.world.register p s₁.world.register p)
    (hranked : Ranked s.world.register) (hrowed : s.Rowed)
    (hleaves : ∀ role address, address ∈ s.leaves role → address ∈ s₁.leaves role) : s₁.Rowed :=
  hrowed.mono (fun _ hrole => (stays_move hmove hranked.toOrdered hrole).resolve_right fun h => by
    rcases h.1 with h | h <;> cases h) hleaves

theorem rowed_append (hdistributed : s.distributed = false) (hrowed : s.Rowed)
    (hranked : Ranked s.world.register) (happend : append msg role s = some s₁) : s₁.Rowed := by
  obtain ⟨proposal, hlookup, happend⟩ := of_bind happend
  obtain ⟨-, happend⟩ := of_assert happend
  obtain ⟨odd, -, happend⟩ := of_bind happend
  obtain ⟨-, happend⟩ := of_assert happend
  obtain ⟨old, -, happend⟩ := of_bind happend
  obtain ⟨pledge, -, happend⟩ := of_bind happend
  dsimp only at happend
  split at happend
  · obtain rfl := Option.some.inj happend
    exact hrowed
  · obtain ⟨hrole, happend⟩ := of_assert happend
    generalize hs₂ : s.saveProposal _ _ = s₂ at happend
    have hrowed₂ : s₂.Rowed := hs₂ ▸ hrowed
    obtain ⟨hfresh, hleaves⟩ := @fresh_electInit s₂ (hs₂ ▸ hdistributed)
    have hread := read_electInit s₂
    have hrowed₃ : (electInit s₂).Rowed := fun role hrole row hrow => by
      rw [hleaves]
      exact hrowed₂ role hrole row hrow
    split at happend
    · exact rowed_addCandidates hrole hread hfresh hrowed₃ happend
    · rename_i found hfound
      obtain ⟨stake, -, hupdate⟩ := of_bind happend
      obtain ⟨-, hlisted⟩ := of_findCandidate hread hfound
      refine hrowed₃.mono (fun role' hrole' => ?_) (leaves_updateStake hfresh hupdate)
      rw [register_updateStake hread hupdate]
      have hsorted : Sorted ((electInit s₂).world.register.cands role) :=
        hs₂ ▸ hranked.sorted role hrole
      exact stays_restake _ hrole hrole' hsorted hlisted

theorem rowed_approve {operate : Motion} {content : Content} {address : Address}
    (hplain : (Method.approve operate content address).Plain)
    (hdistributed : s.distributed = false) (hrowed : s.Rowed) (hranked : Ranked s.world.register)
    (happrove : approve host msg operate content address s = some s₁) : s₁.Rowed := by
  obtain ⟨-, happrove⟩ := of_assert happrove
  obtain ⟨-, happrove⟩ := of_assert happrove
  obtain ⟨-, happrove⟩ := of_assert happrove
  obtain ⟨proposal, hlookup, happrove⟩ := of_bind happrove
  obtain ⟨-, happrove⟩ := of_assert happrove
  split at happrove
  · obtain rfl := Option.some.inj happrove
    exact hrowed
  · obtain ⟨-, happrove⟩ := of_assert happrove
    dsimp only at happrove
    split at happrove
    · obtain rfl := Option.some.inj happrove
      exact hrowed
    · split at happrove
      · obtain ⟨value, -, rfl⟩ := Option.map_eq_some_iff.mp happrove
        unfold updateCfg
        dsimp only
        split
        · exact hrowed
        · exact hrowed
      · unfold passIn at happrove
        dsimp only at happrove
        split at happrove
        · split at happrove
          · obtain rfl := Option.some.inj happrove
            exact hrowed
          · obtain rfl := Option.some.inj happrove
            exact hrowed
        · rename_i hrole
          generalize hs₂ : s.saveProposal _ _ = s₂ at happrove
          obtain ⟨hfresh, hleaves⟩ := @fresh_electInit s₂ (hs₂ ▸ hdistributed)
          refine rowed_addCandidates hrole (read_electInit s₂) hfresh
            (fun role hrole row hrow => ?_) happrove
          rw [hleaves]
          subst hs₂
          exact hrowed role hrole row hrow
      · obtain ⟨kind, hmakes, hmove⟩ := move_passOut (p := 0) happrove
        refine hrowed.mono (fun _ hrole => (stays_move hmove hranked.toOrdered hrole).resolve_right
          fun h => ?_) fun role address hmem => ?_
        · rcases hmakes with rfl | ⟨hrole, hzero, -⟩
          · rcases h.1 with h | h <;> cases h
          · exact hplain.elim hrole (absurd hzero)
        unfold passOut at happrove
        dsimp only at happrove
        split at happrove
        · obtain ⟨-, happrove⟩ := of_assert happrove
          obtain rfl := Option.some.inj happrove
          exact hmem
        · obtain ⟨s₂, hdelete, hpenalty⟩ := of_bind happrove
          obtain ⟨penalised, -, rfl⟩ := Option.map_eq_some_iff.mp hpenalty
          obtain ⟨hfresh, hleaves⟩ := @fresh_electInit (s.delProposal _) hdistributed
          refine leaves_deleteCandidate hfresh hdelete role address ?_
          rw [hleaves]
          exact hmem
      · cases happrove

theorem leaves_vote {address : Address} (hdistributed : s.distributed = false)
    (hvote : vote host msg role address s = some s₁) :
    ∀ role' address', address' ∈ s.leaves role' → address' ∈ s₁.leaves role' := by
  obtain ⟨-, hvote⟩ := of_assert hvote
  obtain ⟨-, hvote⟩ := of_assert hvote
  obtain ⟨odd, -, hvote⟩ := of_bind hvote
  obtain ⟨-, hvote⟩ := of_assert hvote
  obtain ⟨votes, -, hvote⟩ := of_bind hvote
  obtain ⟨found, -, hupdate⟩ := of_bind hvote
  obtain ⟨hfresh, hleaves⟩ := @fresh_electInit (s.store fun st =>
    { st with voters := st.voters.insert (voterKey msg.sender role address) votes }) hdistributed
  intro role' address' hmem
  refine leaves_updateStake hfresh hupdate role' address' ?_
  rw [hleaves]
  exact hmem

theorem mem_withDividend {address address' : Address} {pool : Option Address} {ratio : Option ℤ}
    {dist : Dists} (hmem : address' ∈ dist) : address' ∈ withDividend address pool ratio dist := by
  unfold withDividend
  split
  · exact hmem
  · exact (AList.mem_insert _).mpr (.inr hmem)

theorem leaves_setVoteDividend {pool : Option Address} {ratio : Option ℤ}
    (hdistributed : s.distributed = false)
    (hset : setVoteDividend host msg role pool ratio s = some s₁) :
    ∀ role' address', address' ∈ s.leaves role' → address' ∈ s₁.leaves role' := by
  obtain ⟨proposal, -, hset⟩ := of_bind hset
  obtain ⟨-, hset⟩ := of_assert hset
  obtain ⟨-, hset⟩ := of_assert hset
  obtain rfl := Option.some.inj hset
  intro role' address' hmem
  rw [Run.leaves, hdistributed] at hmem
  have hstored (s' : Run) (hsame : s'.distributed = s.distributed)
      (h : address' ∈ s'.world.dist role') : address' ∈ s'.leaves role' := by
    rw [Run.leaves, hsame, hdistributed]
    exact h
  refine hstored _ rfl ?_
  cases role <;> cases role' <;> first | exact hmem | exact mem_withDividend hmem

/-- **A method without payments leaves a row for every candidate.** -/
theorem rowed_dispatch {method : Method} (hpays : method.pays = false) (hplain : method.Plain)
    (hdistributed : s.distributed = false) (hranked : Ranked s.world.register) (hrowed : s.Rowed)
    (hdispatch : dispatch host receive msg method s = some s₁) : s₁.Rowed := by
  cases method with
  | append => exact rowed_append hdistributed hrowed hranked hdispatch
  | approve => exact rowed_approve hplain hdistributed hrowed hranked hdispatch
  | vote =>
      exact rowed_of_move (move_vote (p := 0) hdispatch) hranked hrowed
        (leaves_vote hdistributed hdispatch)
  | setVoteDividend =>
      exact rowed_of_move (move_setVoteDividend (p := 0) hdispatch) hranked hrowed
        (leaves_setVoteDividend hdistributed hdispatch)
  | apply =>
      refine rowed_of_move (move_apply (p := 0) hdispatch) hranked hrowed ?_
      obtain ⟨-, hdispatch⟩ := of_assert hdispatch
      obtain ⟨-, -, hdispatch⟩ := of_bind hdispatch
      obtain ⟨proposal, -, hdispatch⟩ := of_bind hdispatch
      obtain rfl := Option.some.inj hdispatch
      exact fun _ _ h => h
  | abolish =>
      refine rowed_of_move (move_abolish (p := 0) hdispatch) hranked hrowed ?_
      obtain ⟨-, -, hdispatch⟩ := of_bind hdispatch
      obtain ⟨-, hdispatch⟩ := of_assert hdispatch
      obtain ⟨applied, -, hdispatch⟩ := of_bind hdispatch
      obtain ⟨-, hdispatch⟩ := of_assert hdispatch
      obtain rfl := Option.some.inj hdispatch
      exact fun _ _ h => h
  | configure =>
      refine rowed_of_move (move_configure (p := 0) hdispatch) hranked hrowed ?_
      obtain ⟨-, hdispatch⟩ := of_assert hdispatch
      obtain ⟨-, hdispatch⟩ := of_assert hdispatch
      dsimp only at hdispatch
      split at hdispatch
      · obtain rfl := Option.some.inj hdispatch
        exact fun _ _ h => h
      · obtain rfl := Option.some.inj hdispatch
        exact fun _ _ h => h
  | setNodeAddress =>
      refine rowed_of_move (move_setNodeAddress (p := 0) hdispatch) hranked hrowed ?_
      obtain ⟨-, -, hdispatch⟩ := of_bind hdispatch
      obtain ⟨proposal, -, hdispatch⟩ := of_bind hdispatch
      dsimp only at hdispatch
      split at hdispatch
      · obtain rfl := Option.some.inj hdispatch
        exact fun _ _ h => h
      · split at hdispatch
        · obtain rfl := Option.some.inj hdispatch
          exact fun _ _ h => h
        · obtain rfl := Option.some.inj hdispatch
          exact fun _ _ h => h
  | unVote => cases hpays
  | withdraw => cases hpays
  | extract => cases hpays
  | clean => cases hpays
  | unknown => cases hdispatch

/-! ## Payments -/

/-- The accounts that are paid leave a row for every candidate. -/
def ReceiveRowed (receive : Receive) : Prop :=
  ∀ i w w', receive i w = some w' → Ranked w.register → w.Rowed → w'.Rowed

/-- What a payment does to the lists and the rows. -/
structure PaidRows (s s₁ : Run) : Prop where
  elect : s₁.elect = s.elect
  distributed : s₁.distributed = s.distributed
  ranked : Ranked s₁.world.register
  rowed : s₁.world.Rowed
  stays : ∀ role, role ≠ .committee →
    Stays (s.world.register.cands role) (s₁.world.register.cands role)

theorem PaidRows.refl (hranked : Ranked s.world.register) (hrowed : s.world.Rowed) :
    PaidRows s s :=
  ⟨rfl, rfl, hranked, hrowed, fun _ _ => .refl _⟩

theorem Stays.trans {l l' l'' : List Candidate} (h : Stays l l') (h' : Stays l' l'') :
    Stays l l'' := by
  refine ⟨h'.length.trans h.length, fun row hrow => ?_⟩
  obtain ⟨row₁, hrow₁, heq₁⟩ := h'.listed row hrow
  obtain ⟨row₂, hrow₂, heq₂⟩ := h.listed row₁ hrow₁
  exact ⟨row₂, hrow₂, heq₂.trans heq₁⟩

theorem PaidRows.trans (h : PaidRows s s₁) (h' : PaidRows s₁ s₂) : PaidRows s s₂ where
  elect := h'.elect.trans h.elect
  distributed := h'.distributed.trans h.distributed
  ranked := h'.ranked
  rowed := h'.rowed
  stays role hrole := (h.stays role hrole).trans (h'.stays role hrole)

theorem paidRows_transferCoin (hstays : ReceiveStays receive) (hrows : ReceiveRowed receive)
    {dest : Address} {amount : ℤ} {remark : Remark} (hranked : Ranked s.world.register)
    (hrowed : s.world.Rowed)
    (htransfer : transferCoin host receive dest amount remark s = some s₁) : PaidRows s s₁ := by
  rcases transferCoin_cases htransfer with ⟨-, rfl⟩ | ⟨w, hw, -, -, rfl⟩
  · exact .refl hranked hrowed
  · obtain ⟨hranked', hstays'⟩ := hstays s.world.register _ _ _ 0 hw
      ⟨hranked, fun _ _ => .refl _⟩
    exact ⟨rfl, rfl, hranked', hrows _ _ _ hw hranked hrowed, hstays'⟩

theorem paidRows_payPayee (hstays : ReceiveStays receive) (hrows : ReceiveRowed receive)
    {payee : Payee} {amount : ℤ} (hranked : Ranked s.world.register) (hrowed : s.world.Rowed)
    (hpay : payPayee host receive payee amount s = some s₁) : PaidRows s s₁ := by
  obtain ⟨-, htransfer⟩ := of_assert hpay
  exact paidRows_transferCoin hstays hrows hranked hrowed htransfer

theorem paidRows_payAward (hstays : ReceiveStays receive) (hrows : ReceiveRowed receive)
    {payee : Payee} {entry : Dist} (hranked : Ranked s.world.register)
    (hrowed : s.world.Rowed) (hpay : payAward host receive payee entry s = some s₁) :
    PaidRows s s₁ := by
  unfold payAward at hpay
  split at hpay
  · exact paidRows_payPayee hstays hrows hranked hrowed hpay
  · split at hpay
    · exact paidRows_transferCoin hstays hrows hranked hrowed hpay
    · obtain ⟨onePercent, -, hpay⟩ := of_bind hpay
      obtain ⟨dividend, -, hpay⟩ := of_bind hpay
      obtain ⟨s₂, hfirst, hpay⟩ := of_bind hpay
      obtain ⟨reserve, -, hsecond⟩ := of_bind hpay
      have hpaid := paidRows_transferCoin hstays hrows hranked hrowed hfirst
      exact hpaid.trans (paidRows_payPayee hstays hrows hpaid.ranked hpaid.rowed hsecond)

/-- `extract` under way: whoever is listed was listed when the lists were read, and has a
row in memory. -/
structure Extracting (s : Run) : Prop where
  ranked : Ranked s.world.register
  rowed : s.world.Rowed
  stays : ∀ role, role ≠ .committee → Stays (s.candidates role) (s.world.register.cands role)
  rows : ∀ role, role ≠ .committee → ∀ row ∈ s.candidates role, row.address ∈ s.dist role

/-- The rows of a role change in memory. -/
theorem Extracting.setDist {dist : Dists} (hextracting : Extracting s) (hrole : role ≠ .committee)
    (hdist : ∀ row ∈ s.candidates role, row.address ∈ dist) :
    Extracting (s.setDist role dist) where
  ranked := hextracting.ranked
  rowed := hextracting.rowed
  stays role' hrole' := by
    have hstays := hextracting.stays role' hrole'
    cases role <;> cases role' <;> exact hstays
  rows role' hrole' := by
    have hrows := hextracting.rows role' hrole'
    cases role <;> cases role' <;> first | exact hdist | exact hrows

theorem Extracting.of_paid (hextracting : Extracting s) (hpaid : PaidRows s s₁) :
    Extracting s₁ := by
  have hcands (role : Role) : s₁.candidates role = s.candidates role := by
    rw [Run.candidates, Run.candidates, hpaid.elect]
  have hdist (role : Role) : s₁.dist role = s.dist role := by
    rw [Run.dist, Run.dist, hpaid.elect]
  refine ⟨hpaid.ranked, hpaid.rowed, fun role hrole => ?_, fun role hrole => ?_⟩
  · rw [hcands]
    exact (hextracting.stays role hrole).trans (hpaid.stays role hrole)
  · rw [hcands, hdist]
    exact hextracting.rows role hrole

theorem extracting_award (hstays : ReceiveStays receive) (hrows : ReceiveRowed receive)
    {payee : Payee} (hstring : payee.isString) (hrole : role ≠ .committee)
    (hextracting : Extracting s) (haward : award host receive role payee s = some s₁) :
    Extracting s₁ := by
  unfold award at haward
  split at haward
  · obtain rfl := Option.some.inj haward
    exact hextracting
  · rename_i entry hlookup
    obtain ⟨s₂, hpay, haward⟩ := of_bind haward
    have hextracting₂ := hextracting.of_paid
      (paidRows_payAward hstays hrows hextracting.ranked hextracting.rowed hpay)
    have hinsert : ∀ row ∈ s₂.candidates role,
        row.address ∈ (s₂.dist role).insert payee.name { entry with reward := 0 } := fun row hrow =>
      (AList.mem_insert _).mpr (.inr (hextracting₂.rows role hrole row hrow))
    dsimp only at haward
    split at haward
    · obtain rfl := Option.some.inj haward
      exact hextracting₂.setDist hrole hinsert
    · -- the row that is deleted is of one who was not listed
      rename_i hany
      obtain rfl := Option.some.inj haward
      refine hextracting₂.setDist hrole fun row hrow => ?_
      refine AList.mem_erase.mpr ⟨fun heq => hany ?_, hinsert row hrow⟩
      exact ⟨hstring, List.any_eq_true.mpr ⟨row, hrow, decide_eq_true heq⟩⟩

theorem extracting_extract (hstays : ReceiveStays receive) (hrows : ReceiveRowed receive)
    {list : Option (List Payee)} (hstrings : (Method.extract list).Strings)
    (hdistributed : s.distributed = false)
    (hranked : Ranked s.world.register) (hrowed : s.world.Rowed)
    (hextract : extract host receive msg list s = some s₁) : Extracting s₁ := by
  obtain ⟨s₂, hdist, hextract⟩ := of_bind hextract
  have hstart : Extracting s₂ := by
    obtain ⟨hfresh, hleaves⟩ := fresh_electInit hdistributed
    obtain ⟨hfresh₂, hmono⟩ := fresh_rewardDistribution hfresh hdist
    have hread := read_rewardDistribution (read_electInit s) hdist
    have hregister : s₂.world.register = s.world.register :=
      (register_rewardDistribution hdist).trans rfl
    have hsame (role : Role) : s₂.world.dist role = s.world.dist role := by
      obtain ⟨reward, -, hdist⟩ := of_bind hdist
      split at hdist
      · obtain rfl := Option.some.inj hdist
        rfl
      · obtain ⟨⟨valDist, kolDist⟩, -, hdist⟩ := of_bind hdist
        obtain rfl := Option.some.inj hdist
        rfl
    refine ⟨hregister ▸ hranked, fun role hrole => ?_, fun role hrole => ?_,
      fun role hrole row hrow => ?_⟩
    · rw [hregister, hsame]
      exact hrowed role hrole
    · rw [hread role]
      exact .refl _
    · rw [hread role, hregister] at hrow
      rw [← hfresh₂ role]
      refine hmono role _ ?_
      rw [hleaves, Run.leaves, hdistributed]
      exact hrowed role hrole row hrow
  have hboth : ∀ {s s' : Run} {payee : Payee}, payee.isString → Extracting s →
      ((award host receive .validator payee s).bind (award host receive .kol payee)) =
        some s' → Extracting s' := by
    intro s s' payee hstring hs hboth
    obtain ⟨s₃, hfirst, hsecond⟩ := Option.bind_eq_some_iff.mp hboth
    have hs₃ := @extracting_award _ _ _ _ .validator hstays hrows _ hstring (by decide) hs hfirst
    exact @extracting_award _ _ _ _ .kol hstays hrows _ hstring (by decide) hs₃ hsecond
  dsimp only at hextract
  split at hextract
  · exact hboth rfl hstart hextract
  · obtain ⟨-, hextract⟩ := of_assert hextract
    exact Runs.foldlM_invariant_of_mem (fun hmem hs hs' => hboth (hstrings _ hmem) hs hs') hstart
      hextract

theorem Extracting.saved (hextracting : Extracting s) : s.Rowed := by
  intro role hrole row hrow
  rw [Run.leaves]
  split
  · obtain ⟨row', hrow', heq⟩ := (hextracting.stays role hrole).listed row hrow
    rw [← heq]
    exact hextracting.rows role hrole row' hrow'
  · exact hextracting.rowed role hrole row hrow

/-- The second half of `unVote`. -/
theorem rowed_unVote (hstays : ReceiveStays receive) (hrows : ReceiveRowed receive)
    {address : Address} (hdistributed : s.distributed = false) (hranked : Ranked s.world.register)
    (hrowed : s.world.Rowed) (hunvote : unVote host receive msg role address s = some s₁) :
    s₁.Rowed := by
  obtain ⟨hrole, hunvote⟩ := of_assert hunvote
  obtain ⟨-, hunvote⟩ := of_assert hunvote
  obtain ⟨amount, hlookup, hunvote⟩ := of_bind hunvote
  obtain ⟨s₂, htransfer, hunvote⟩ := of_bind hunvote
  have hdropped : Ranked (s.store fun st =>
      { st with voters := st.voters.erase (voterKey msg.sender role address) }).world.register :=
    ⟨⟨hranked.sorted, hranked.nodes⟩, hranked.owners, hranked.plain, hranked.approved⟩
  have hpaid := paidRows_transferCoin hstays hrows hdropped hrowed htransfer
  have hdistributed₂ : s₂.distributed = false := hpaid.distributed.trans hdistributed
  have hrowed₂ : (electInit s₂).Rowed :=
    (rowed_of_not_distributed (s := electInit s₂) hdistributed₂).mpr hpaid.rowed
  have hread := read_electInit s₂
  dsimp only at hunvote
  split at hunvote
  · obtain rfl := Option.some.inj hunvote
    exact hrowed₂
  · rename_i found hfound
    obtain ⟨-, hupdate⟩ := of_assert hunvote
    obtain ⟨-, hlisted⟩ := of_findCandidate hread hfound
    refine hrowed₂.mono (fun role' hrole' => ?_)
      (leaves_updateStake (fresh_electInit hdistributed₂).1 hupdate)
    rw [register_updateStake hread hupdate]
    exact stays_restake _ hrole hrole' (hpaid.ranked.sorted role hrole) hlisted

/-- A call that ends with a refund. -/
theorem rowed_refund (hstays : ReceiveStays receive) (hrows : ReceiveRowed receive)
    {dest : Address} {amount : ℤ} {remark : Remark} (hdistributed : s.distributed = false)
    (hranked : Ranked s.world.register) (hrowed : s.world.Rowed)
    (htransfer : transferCoin host receive dest amount remark s = some s₁) : s₁.Rowed := by
  have hpaid := paidRows_transferCoin hstays hrows hranked hrowed htransfer
  exact (rowed_of_not_distributed (hpaid.distributed.trans hdistributed)).mpr hpaid.rowed

theorem rowed_withdraw (hstays : ReceiveStays receive) (hrows : ReceiveRowed receive)
    (hdistributed : s.distributed = false) (hranked : Ranked s.world.register)
    (hrowed : s.world.Rowed) (hwithdraw : withdraw host receive msg role s = some s₁) :
    s₁.Rowed := by
  have hrowed' : s.Rowed := (rowed_of_not_distributed hdistributed).mpr hrowed
  unfold withdraw at hwithdraw
  dsimp only at hwithdraw
  split at hwithdraw
  · obtain ⟨-, hwithdraw⟩ := of_assert hwithdraw
    obtain ⟨-, hwithdraw⟩ := of_assert hwithdraw
    obtain rfl := Option.some.inj hwithdraw
    exact hrowed'
  · rename_i hrole
    split at hwithdraw
    · obtain ⟨applicant, hlookup, hwithdraw⟩ := of_bind hwithdraw
      obtain ⟨pledge, -, hwithdraw⟩ := of_bind hwithdraw
      split at hwithdraw
      · rename_i hpass
        refine rowed_refund hstays hrows (s := s.delProposal _) hdistributed ?_ hrowed hwithdraw
        exact ranked_papers (sameApproved_erase_none hlookup hpass) hranked
      · obtain ⟨s₂, hdelete, hwithdraw⟩ := of_bind hwithdraw
        obtain rfl := Option.some.inj hwithdraw
        obtain ⟨hfresh, hleaves⟩ := @fresh_electInit (s.delProposal _) hdistributed
        have hmono (role' : Role) (address : Address) (hmem : address ∈ s.leaves role') :
            address ∈ s₂.leaves role' :=
          leaves_deleteCandidate hfresh hdelete role' address ((hleaves role').symm ▸ hmem)
        refine hrowed'.mono (fun role' hrole' => ?_) hmono
        change Stays _ (s₂.world.register.cands role')
        rcases register_deleteCandidate (read_electInit _) hdelete with ⟨-, hdeleted⟩ |
          ⟨hlisted, hdeleted⟩
        · rw [hdeleted]
          exact .refl _
        · have hmove := @Move.leave s.cfg s.world.register 0 _ role msg.sender hrole hlisted
            ((setApproved_erase role msg.sender).toCString msg.plain)
          rw [hdeleted]
          exact (stays_move hmove hranked.toOrdered hrole').resolve_right fun h => by
            rcases h.1 with h | h <;> cases h
    · obtain ⟨-, hwithdraw⟩ := of_assert hwithdraw
      obtain ⟨pledge, -, htransfer⟩ := of_bind hwithdraw
      refine rowed_refund hstays hrows (s := s.delProposal _) hdistributed ?_ hrowed htransfer
      exact ranked_papers (sameApproved_erase fun _ _ _ => by simp) hranked

theorem rowed_clean (hstays : ReceiveStays receive) (hrows : ReceiveRowed receive)
    {operate : Motion} {content : Content} {address : Address}
    (hdistributed : s.distributed = false) (hranked : Ranked s.world.register)
    (hrowed : s.world.Rowed)
    (hclean : clean host receive msg operate content address s = some s₁) : s₁.Rowed := by
  have hrowed' : s.Rowed := (rowed_of_not_distributed hdistributed).mpr hrowed
  obtain ⟨-, hclean⟩ := of_assert hclean
  obtain ⟨proposal, hlookup, hclean⟩ := of_bind hclean
  obtain ⟨⟨-, hpass⟩, hclean⟩ := of_assert hclean
  dsimp only at hclean
  split at hclean
  · split at hclean
    · refine rowed_refund hstays hrows (s := s.delProposal _) hdistributed ?_ hrowed hclean
      exact ranked_papers (sameApproved_erase_none hlookup hpass) hranked
    · obtain rfl := Option.some.inj hclean
      exact hrowed'
  · obtain rfl := Option.some.inj hclean
    exact hrowed'

/-! ## Calls and histories -/

/-- **One call**, when no account that is paid in it lists a candidate. -/
theorem rowed_main (hstays : ReceiveStays receive) (hrows : ReceiveRowed receive)
    {method : Method} (hplain : method.Plain) (hstrings : method.Strings)
    (hranked : Ranked w.register) (hrowed : w.Rowed)
    (hmain : main host receive msg method w = some w₁) : w₁.Rowed := by
  obtain ⟨s, hprepare, hmain⟩ := of_bind hmain
  obtain ⟨-, hmain⟩ := of_assert hmain
  obtain ⟨s₁, hdispatch, hmain⟩ := of_bind hmain
  obtain rfl := Option.some.inj hmain
  obtain ⟨hregister, -⟩ := register_prepare hprepare
  have hprepared : s.distributed = false ∧ ∀ role, s.world.dist role = w.dist role := by
    obtain ⟨allStake, -, ⟨-, rfl⟩ | ⟨-, rfl⟩⟩ := prepare_cases hprepare
    · exact ⟨rfl, fun _ => rfl⟩
    · exact ⟨rfl, fun _ => rfl⟩
  obtain ⟨hdistributed, hdist⟩ := hprepared
  rw [← hregister] at hranked
  have hrowed' : s.world.Rowed := fun role hrole => by
    rw [hregister, hdist]
    exact hrowed role hrole
  rw [rowed_saveDists]
  by_cases hpays : method.pays = false
  · exact rowed_dispatch hpays hplain hdistributed hranked
      ((rowed_of_not_distributed hdistributed).mpr hrowed') hdispatch
  · cases method with
    | unVote => exact rowed_unVote hstays hrows hdistributed hranked hrowed' hdispatch
    | withdraw => exact rowed_withdraw hstays hrows hdistributed hranked hrowed' hdispatch
    | extract =>
        exact (extracting_extract hstays hrows hstrings hdistributed hranked hrowed'
          hdispatch).saved
    | clean => exact rowed_clean hstays hrows hdistributed hranked hrowed' hdispatch
    | apply | append | approve | vote | abolish | configure | setNodeAddress | setVoteDividend
    | unknown => exact absurd rfl hpays

theorem rowed_react (reaction : Reaction) :
    reaction.All Method.Quiet → ∀ {w w₁ : World},
      react host reaction w = some w₁ → Ranked w.register → w.Rowed → w₁.Rowed := by
  induction reaction with
  | done =>
      intro _ w w₁ hreact _ hrowed
      obtain rfl := Option.some.inj hreact
      exact hrowed
  | fail =>
      intro _ w w₁ hreact
      cases hreact
  | call msg method reactions next ihreactions ihnext =>
      intro ⟨hmethod, hreactions, hnext⟩ w w₁ hreact hranked hrowed
      rw [react] at hreact
      unfold World.within at hreact
      split at hreact
      · rename_i w' hmain
        have hstays := receiveStays_react host hreactions
        obtain ⟨hranked', -⟩ := Invariant.main (p := 0) (hstays w.register)
          (allows_stayingIn hmethod) hmain ⟨hranked, fun _ _ => .refl _⟩
        have hrowed' : w'.Rowed := by
          refine rowed_main hstays (fun i _ _ h => ihreactions i (hreactions i) h) hmethod.plain
            hmethod.strings ?_ ?_ hmain
          · exact hranked
          · exact hrowed
        exact ihnext hnext hreact hranked' hrowed'
      · exact ihnext hnext hreact hranked hrowed

/-- The candidate lists are well formed. -/
structure World.WellFormed (w : World) : Prop where
  sorted : ∀ role, role ≠ .committee → (w.register.cands role).Pairwise Candidate.Before
  sized : ∀ role, role ≠ .committee →
    (w.register.cands role).length ≤ maxSize role w.storage.config
  owners : ∀ role, role ≠ .committee → ((w.register.cands role).map Candidate.address).Nodup
  nodes : (w.storage.valCands.map Candidate.node).Nodup
  rewarded : ∀ role, role ≠ .committee → ∀ row ∈ w.register.cands role,
    (w.dist role).lookup row.address ≠ none
  approved : ∀ role, role ≠ .committee → ∀ row ∈ w.register.cands role, ∃ proposal,
    w.storage.proposals.lookup ⟨.apply, .role role, row.address⟩ = some proposal ∧
      proposal.passTime ≠ none

/-- What is kept from step to step. -/
structure World.Listed (w : World) : Prop where
  ranked : Ranked w.register
  rowed : w.Rowed
  sized : ∀ role, role ≠ .committee →
    (w.register.cands role).length ≤ maxSize role w.storage.config

theorem World.Listed.wellFormed (hlisted : w.Listed) : w.WellFormed where
  sorted role hrole := (hlisted.ranked.lists hrole).sorted
  sized := hlisted.sized
  owners := hlisted.ranked.owners
  nodes := hlisted.ranked.nodes
  rewarded role hrole row hrow := by
    have hmem := hlisted.rowed role hrole row hrow
    exact Option.isSome_iff_ne_none.mp (AList.lookup_isSome.mpr hmem)
  approved role hrole row hrow := by
    have happroved := hlisted.ranked.approved role hrole row hrow
    unfold Dpos.approved at happroved
    cases hlookup : w.register.proposals.lookup ⟨.apply, .role role, row.address⟩ with
    | none =>
        rw [hlookup] at happroved
        exact absurd rfl happroved
    | some proposal =>
        refine ⟨proposal, hlookup, fun hnone => ?_⟩
        rw [hlookup, Option.bind_some, hnone] at happroved
        exact happroved rfl

/-- The configuration is the same. -/
def SameConfig (w w' : World) : Prop :=
  w'.storage.config = w.storage.config

/-- All items of the configuration. -/
def Item.all : List Item :=
  [.gasPrice, .baseReserve, .committeeSize, .kolSize, .kolCandidateSize, .kolMinPledge,
    .validatorSize, .validatorCandidateSize, .validatorMinPledge, .pledgeMagnification,
    .passRate, .validPeriod, .voteUnit, .rewardAllocationShare, .logicContract]

instance (w w' : World) : Decidable (SameConfig w w') :=
  decidable_of_iff (∀ item ∈ Item.all, w'.storage.config item = w.storage.config item)
    ⟨fun h => funext fun item => h item (by cases item <;> decide), fun h item _ => congrFun h item⟩

/-- **One step.** -/
theorem listed_step {st : Step}
    (hcalls : st.Calls fun method => method.Plain ∧ method.Strings)
    (hwithin : st.Within Method.Quiet) (hconfig : SameConfig w (step host w st))
    (hlisted : w.Listed) :
    (step host w st).Listed := by
  rcases step_cases host w st with
    ⟨hstorage, hsame⟩ | ⟨msg, method, reactions, w₀, rfl, hstorage, hregister, hmain⟩
  · refine ⟨hsame ▸ hlisted.ranked, fun role hrole => ?_, fun role hrole => ?_⟩
    · rw [hsame, World.dist, hstorage]
      exact hlisted.rowed role hrole
    · rw [hsame, hconfig]
      exact hlisted.sized role hrole
  · obtain ⟨hplain, hstrings⟩ := hcalls
    generalize step host w _ = w₁ at hmain hconfig ⊢
    have hstays := receiveStays_react host hwithin
    have hranked : Ranked w₀.register := hregister ▸ hlisted.ranked
    have hrowed : w₁.Rowed := by
      refine rowed_main hstays (fun i _ _ h => rowed_react (reactions i) (hwithin i) h) hplain
        hstrings hranked ?_ hmain
      intro role hrole
      rw [hregister, World.dist, hstorage]
      exact hlisted.rowed role hrole
    by_cases hpays : method.pays = false
    · obtain ⟨kind, hmakes, hmove⟩ := move_main (p := 0) hpays hmain
      rw [hregister, hstorage] at hmove
      refine ⟨ranked_move hmove (ne_stray_of_makes hplain hmakes) hlisted.ranked, hrowed,
        fun role hrole => ?_⟩
      have hsized := hlisted.sized role hrole
      rw [hconfig]
      rcases stays_move hmove hlisted.ranked.toOrdered hrole with hstays | ⟨-, hlength⟩
      · exact hstays.length.trans hsized
      · exact hlength.trans (max_le hsized le_rfl)
    · have hlists : method.lists = false := by
        cases method <;> first | rfl | exact absurd rfl hpays
      obtain ⟨hranked₁, hstays₁⟩ := Invariant.main (p := 0) (hstays w.register)
        (allows_stayingIn ⟨hlists, hplain, hstrings⟩) hmain
        ⟨hranked, fun _ _ => hregister ▸ .refl _⟩
      refine ⟨hranked₁, hrowed, fun role hrole => ?_⟩
      rw [hconfig]
      exact (hstays₁ role hrole).length.trans (hlisted.sized role hrole)

theorem listed_initialization {logicContract : Address} {committee : List Address}
    {validators : List (Address × ℤ)} {balance : ℕ}
    (hinit : initialization host msg logicContract committee validators balance = some w)
    (hnodup : (validators.map Prod.fst).Nodup) (hlength : validators.length ≤ 100)
    (hplain : ∀ row ∈ validators, 0 ∉ row.1) : w.Listed := by
  obtain ⟨hconfig, hval, hkol, -, -, -⟩ := of_initialization hinit
  have hval' : w.register.cands .validator = _ := hval
  have hkol' : w.register.cands .kol = [] := hkol
  have hperm := perm_sortRows (validators.map fun row => ⟨row.1, row.2, some row.1⟩)
  refine ⟨ranked_initialization hinit hnodup hplain, fun role hrole row hrow => ?_,
    fun role hrole => ?_⟩
  · cases role with
    | committee => exact absurd rfl hrole
    | validator =>
        rw [hval', hperm.mem_iff] at hrow
        obtain ⟨validator, hmem, rfl⟩ := List.mem_map.mp hrow
        obtain ⟨-, hinit⟩ := of_assert hinit
        obtain ⟨-, hinit⟩ := of_assert hinit
        obtain rfl := Option.some.inj hinit
        exact mem_foldl_insert (.inr ⟨validator, hmem, rfl⟩)
    | kol =>
        rw [hkol'] at hrow
        cases hrow
  · rw [hconfig]
    cases role with
    | committee => exact absurd rfl hrole
    | validator =>
        rw [hval', hperm.length_eq, List.length_map]
        exact hlength
    | kol =>
        rw [hkol']
        exact Nat.zero_le _

/-- **The candidate lists are well formed** in every state of a history without changes of
the configuration, in which no account that is paid has a candidate listed before the
payment returns, no address of an application ends for the host before it ends for the
caller, and `extract` is given strings. -/
theorem wellFormed_states {logicContract : Address} {committee : List Address}
    {validators : List (Address × ℤ)} {balance : ℕ}
    (hinit : initialization host msg logicContract committee validators balance = some w)
    (hnodup : (validators.map Prod.fst).Nodup) (hlength : validators.length ≤ 100)
    (hplain : ∀ row ∈ validators, 0 ∉ row.1) {steps : List Step}
    (hcalls : ∀ st ∈ steps, st.Calls fun method => method.Plain ∧ method.Strings)
    (hwithin : ∀ st ∈ steps, st.Within Method.Quiet)
    (hconfig : (states host w steps).IsChain SameConfig) :
    ∀ w' ∈ states host w steps, w'.WellFormed := by
  intro w' hmem
  exact (states_invariant (q := fun st => st.Calls _ ∧ st.Within _)
    (fun hst hconfig h => listed_step hst.1 hst.2 hconfig h)
    (listed_initialization hinit hnodup hlength hplain)
    (fun st hst => ⟨hcalls st hst, hwithin st hst⟩) hconfig w' hmem).wellFormed

/-- `[5]` applies to become a validator and one of the two members of the committee
agrees; then coins come, and the validator `[2]`, who is the other member, asks for its
rewards. -/
def applicationHistory (reaction : Reaction) : List Step :=
  [coinCall [5] 300000000000000 1 (.apply .validator none none none),
    plainCall [1] 2 (.approve .apply (.role .validator) [5]),
    .reward 200,
    .call (plainMsg [2] 3) (.extract none) fun _ => reaction]

/-- The other member of the committee agrees as well. -/
def agree : Reaction :=
  .call (plainMsg [2] 3) (.approve .apply (.role .validator) [5]) (fun _ => .done) .done

/-- It agrees after it was paid. -/
theorem wellFormed_states_application :
    ∃ w ∈ states sampleHost (sampleWorld [([2], 0), ([3], 0)])
        (applicationHistory .done ++ [plainCall [2] 4 (.approve .apply (.role .validator) [5])]),
      w.WellFormed ∧ w.storage.valCands.length = 3 := by
  obtain ⟨w, hw, hlength⟩ : ∃ w ∈ states sampleHost (sampleWorld [([2], 0), ([3], 0)])
      (applicationHistory .done ++ [plainCall [2] 4 (.approve .apply (.role .validator) [5])]),
      w.storage.valCands.length = 3 := by
    decide +kernel
  refine ⟨w, hw, ?_, hlength⟩
  have hsteps : ∀ st ∈ applicationHistory .done ++
      [plainCall [2] 4 (.approve .apply (.role .validator) [5])],
      st.Calls (fun method => method.Plain ∧ method.Strings) ∧ st.Within Method.Quiet := by
    intro st hst
    simp only [applicationHistory, coinCall, plainCall, List.cons_append, List.nil_append,
      List.mem_cons, List.not_mem_nil, or_false] at hst
    rcases hst with rfl | rfl | rfl | rfl | rfl <;>
      simp [Step.Calls, Step.Within, Reaction.All, Method.Plain, Method.Strings]
  exact wellFormed_states (initialization_sample _) (by decide) (by decide) (by decide)
    (fun st hst => (hsteps st hst).1) (fun st hst => (hsteps st hst).2) (by decide +kernel) w hw

/-- It agrees before the payment returns, and `[5]` is listed without a row. -/
theorem listed_without_row :
    let history := states sampleHost (sampleWorld [([2], 0), ([3], 0)]) (applicationHistory agree)
    history.IsChain SameConfig ∧ ∃ w ∈ history, ¬ w.WellFormed ∧
      (∃ row ∈ w.storage.valCands, row.address = [5]) ∧ w.storage.valDist.lookup [5] = none := by
  intro history
  have hfound : history.IsChain SameConfig ∧ ∃ w ∈ history,
      (∃ row ∈ w.storage.valCands, row.address = [5]) ∧
        w.storage.valDist.lookup [5] = none := by
    decide +kernel
  obtain ⟨hconfig, w, hw, ⟨row, hrow, haddress⟩, hnone⟩ := hfound
  refine ⟨hconfig, w, hw, fun hformed => ?_, ⟨row, hrow, haddress⟩, hnone⟩
  refine hformed.rewarded .validator (by decide) row hrow ?_
  rw [haddress]
  exact hnone

end CegChain.Dpos
