import CegChain.Contract.WellFormed
import CegChain.Lib.OrderedMap

/-!
# The stakes of candidates

A candidate's stake should be its pledge, magnified, with the votes that are recorded for
it.  Votes and further pledges change the stake by what they are, so this stays true while
a candidate is on a list.  When it leaves, or is evicted, the votes stay on record; when it
is listed again its stake is the pledge alone.

In a history in which nobody is listed for whom votes are on record, and no caller hides a
part of an address behind a zero character, the stakes are exact (`exact_states`).
-/

namespace CegChain.Dpos

open Layers Register Totals

variable {host : Host} {msg : Msg} {w w₁ : World} {cfg : Config} {p p' : Pending}
  {r r' : Register} {kind : Kind} {role : Role} {base : Role → Address → ℤ} {magnification : ℤ}

/-! ## What a stake should be -/

/-- The votes for a candidate in a role that are on record. -/
def Register.votes (role : Role) (address : Address) (r : Register) : ℤ :=
  total (fun key amount => if key.role = role ∧ key.candidate = address then amount else 0) r.voters

/-- What the stake of a candidate should be: the pledge, magnified, the votes, those that
are pending, and what it began with. -/
def due (base : Role → Address → ℤ) (magnification : ℤ) (r : Register) (p : Pending) (role : Role)
    (address : Address) : Option ℤ :=
  (approved r.proposals role address).map fun pledge =>
    pledge * magnification + r.votes role address + base role address + p role address

/-- Every stake is what it should be. -/
def Exact (base : Role → Address → ℤ) (magnification : ℤ) (r : Register) (p : Pending) : Prop :=
  ∀ role, role ≠ .committee → ∀ row ∈ r.cands role,
    due base magnification r p role row.address = some row.stake

theorem due_save {candidates : List Candidate} {update : Bool} {role' : Role} {address : Address} :
    due base magnification (r.save cfg role candidates update) p role' address =
      due base magnification r p role' address := by
  rw [due, due, proposals_save, Register.votes, Register.votes, voters_save]

/-- The rule for a list that is saved. -/
theorem exact_save {candidates : List Candidate} {update : Bool} (hrole : role ≠ .committee)
    (hothers : ∀ role', role' ≠ .committee → role' ≠ role → ∀ row ∈ r.cands role',
      due base magnification r p role' row.address = some row.stake)
    (hrows : ∀ row ∈ candidates, due base magnification r p role row.address = some row.stake) :
    Exact base magnification (r.save cfg role candidates update) p := by
  intro role' hrole' row hrow
  rw [due_save]
  rw [cands_save hrole hrole'] at hrow
  split at hrow
  · rename_i heq
    rw [heq]
    exact hrows row hrow
  · rename_i hne
    exact hothers role' hrole' hne row hrow

/-- The rule for a stake that changes. -/
theorem exact_restake {found : Candidate} {stake : ℤ} (hranked : Ranked r)
    (hrole : role ≠ .committee) (hfound : r.find role found.address = some found)
    (hothers : ∀ role', role' ≠ .committee → ∀ row ∈ r.cands role',
      (role', row.address) ≠ (role, found.address) →
        due base magnification r p role' row.address = some row.stake)
    (hnew : due base magnification r p role found.address = some stake) :
    Exact base magnification (r.restake cfg role found stake) p := by
  obtain ⟨a, b, a', b', update, hsplit, hrest, -, hrestake, -⟩ :=
    exists_restake cfg stake (hranked.sorted role hrole) hfound
  rw [hrestake]
  refine exact_save hrole (fun role' hrole' hne row hrow =>
    hothers role' hrole' row hrow fun heq => hne (Prod.mk.inj heq).1) fun row hrow => ?_
  rw [List.perm_middle.mem_iff, List.mem_cons, ← hrest] at hrow
  rcases hrow with rfl | hrow
  · exact hnew
  · have howners := hranked.owners role hrole
    rw [hsplit, List.map_append, List.map_cons, List.perm_middle.nodup_iff, List.nodup_cons,
      ← List.map_append] at howners
    refine hothers role hrole row ?_ fun heq => howners.1 ?_
    · rw [hsplit, List.perm_middle.mem_iff]
      exact List.mem_cons_of_mem _ hrow
    · rw [← (Prod.mk.inj heq).2]
      exact List.mem_map_of_mem hrow

/-! ## Votes -/

theorem votes_insert (r : Register) (key : VoterKey) (votes : ℤ) (role : Role)
    (address : Address) :
    Register.votes role address { r with voters := r.voters.insert key votes } =
      r.votes role address + if key.role = role ∧ key.candidate = address then
        votes - (r.voters.lookup key).getD 0 else 0 := by
  rw [Register.votes, total_insert, ← Register.votes]
  cases hlookup : r.voters.lookup key with
  | none =>
      rw [weight_of_none hlookup]
      split <;> simp
  | some old =>
      rw [weight_of_lookup hlookup]
      split
      · simp only [Option.getD_some]
        ring
      · simp

theorem votes_erase {key : VoterKey} {amount : ℤ} (hlookup : r.voters.lookup key = some amount)
    (role : Role) (address : Address) :
    Register.votes role address { r with voters := r.voters.erase key } =
      r.votes role address - if key.role = role ∧ key.candidate = address then amount else 0 := by
  rw [Register.votes, total_erase, ← Register.votes, weight_of_lookup hlookup]

/-- An application changes that is not of this candidate. -/
theorem due_of_ne {proposals : Table ProposalKey Proposal} {address : Address}
    {pledge : Option ℤ} (hset : SetApproved role address pledge r.proposals proposals)
    {role' : Role} {address' : Address} (hrole' : role' ≠ .committee)
    (hne : (role', address') ≠ (role, address)) :
    due base magnification { r with proposals := proposals } p role' address' =
      due base magnification r p role' address' := by
  rw [due, due, hset.2 role' address' hrole' hne]
  rfl

/-- The moves that change no pledge and are not stray. -/
def Kind.Quiet (kind : Kind) : Prop :=
  kind ≠ .pledge ∧ kind ≠ .stray ∧ kind ≠ .strayVote

/-- **Every move but those of pledges keeps the stakes exact.** -/
theorem exact_move (hmove : Move cfg kind r p r' p') (hquiet : kind.Quiet) (hranked : Ranked r)
    (hexact : Exact base magnification r p) : Exact base magnification r' p' := by
  cases hmove with
  | papers hsame | config _ _ hsame =>
      intro role hrole row hrow
      rw [due, hsame role row.address hrole]
      exact hexact role hrole row hrow
  | pass _ hkind | enlist _ hkind =>
      rcases hkind with ⟨rfl, -⟩ | rfl
      · exact absurd rfl hquiet.1
      · exact absurd rfl hquiet.2.1
  | raise => exact absurd rfl hquiet.1
  | @leave _ _ proposals role address hrole hlisted hset =>
      obtain ⟨found, rfl, hfound⟩ := exists_of_find_ne_none hlisted
      obtain ⟨a, b, hsplit, hplace⟩ := split_of_find hfound
      have hsorted := hranked.sorted role hrole
      have howners := hranked.owners role hrole
      rw [toCString_of_not_mem (hranked.plain role hrole found
        (List.mem_of_find?_eq_some hfound))] at hset
      rw [hsplit] at hsorted howners
      rw [hplace, hsplit, sortRows_eraseIdx hsorted]
      refine exact_save hrole (fun role' hrole' hne row hrow => ?_) fun row hrow => ?_
      · rw [due_of_ne hset hrole' fun heq => hne (Prod.mk.inj heq).1]
        exact hexact role' hrole' row hrow
      · rw [List.map_append, List.map_cons, List.perm_middle.nodup_iff, List.nodup_cons,
          ← List.map_append] at howners
        rw [due_of_ne hset hrole fun heq =>
          howners.1 ((Prod.mk.inj heq).2 ▸ List.mem_map_of_mem hrow)]
        refine hexact role hrole row ?_
        rw [hsplit, List.perm_middle.mem_iff]
        exact List.mem_cons_of_mem _ hrow
  | @withdraw _ _ _ proposals role address hrole hkind hunlisted hset =>
      rw [hkind.toCString hquiet.2.1] at hset
      intro role' hrole' row hrow
      refine (due_of_ne hset hrole' fun heq => ?_).trans (hexact role' hrole' row hrow)
      obtain ⟨rfl, rfl⟩ := Prod.mk.inj heq
      exact forall_ne_of_find hunlisted row hrow rfl
  | @vote _ _ role voter found amount votes hrole hfound hvotes =>
      have hrow := List.mem_of_find?_eq_some hfound
      have haddress := toCString_of_not_mem (hranked.plain role hrole found hrow)
      have hbefore :
          Ranked { r with voters := r.voters.insert (voterKey voter role found.address) votes } :=
        ⟨⟨hranked.sorted, hranked.nodes⟩, hranked.owners, hranked.plain, hranked.approved⟩
      refine exact_restake hbefore hrole hfound (fun role' hrole' row hrow hne => ?_) ?_
      · have hvotes' :=
          votes_insert r (voterKey voter role found.address) votes role' row.address
        rw [voterKey_role, voterKey_candidate, haddress,
          if_neg fun h => hne (Prod.ext h.1.symm h.2.symm), add_zero] at hvotes'
        rw [due, hvotes']
        exact hexact role' hrole' row hrow
      · have hvotes' :=
          votes_insert r (voterKey voter role found.address) votes role found.address
        rw [if_pos ⟨rfl, haddress⟩, hvotes, add_sub_cancel_left] at hvotes'
        have hdue := hexact role hrole found hrow
        rw [due, Option.map_eq_some_iff] at hdue ⊢
        obtain ⟨pledge, happroved, hstake⟩ := hdue
        refine ⟨pledge, happroved, ?_⟩
        rw [← hvotes] at hvotes'
        rw [hvotes', ← hstake]
        ring
  | @drop _ _ key amount hlookup =>
      intro role hrole row hrow
      have hdue := hexact role hrole row hrow
      rw [due, Option.map_eq_some_iff] at hdue ⊢
      obtain ⟨pledge, happroved, hstake⟩ := hdue
      refine ⟨pledge, happroved, ?_⟩
      rw [votes_erase hlookup, ← hstake, Pending.add]
      by_cases hkey : key.role = role ∧ key.candidate = row.address
      · rw [if_pos hkey, if_pos ⟨hkey.1.symm, hkey.2.symm⟩]
        ring
      · rw [if_neg hkey, if_neg fun h => hkey ⟨h.1.symm, h.2.symm⟩]
        ring
  | @settle _ _ role found amount hrole hfound =>
      rw [toCString_of_not_mem (hranked.plain role hrole found
        (List.mem_of_find?_eq_some hfound))] at hexact
      have hadd (role' : Role) (address : Address) :
          p'.add role found.address amount role' address = p' role' address +
            if (role', address) = (role, found.address) then amount else 0 := by
        rw [Pending.add]
        by_cases h : role' = role ∧ address = found.address
        · rw [if_pos h, if_pos (by rw [h.1, h.2])]
        · rw [if_neg h, if_neg fun heq => h (Prod.mk.inj heq), add_zero]
      refine exact_restake hranked hrole hfound (fun role' hrole' row hrow hne => ?_) ?_
      · have hdue := hexact role' hrole' row hrow
        rw [due, hadd, if_neg hne, add_zero] at hdue
        exact hdue
      · have hdue := hexact role hrole found (List.mem_of_find?_eq_some hfound)
        rw [due, hadd, if_pos rfl, Option.map_eq_some_iff] at hdue
        obtain ⟨pledge, happroved, hstake⟩ := hdue
        rw [due, Option.map_eq_some_iff]
        refine ⟨pledge, happroved, ?_⟩
        rw [← hstake]
        ring
  | @forget _ _ _ role address amount hrole hkind hunlisted =>
      rw [hkind.toCString hquiet.2.2] at hexact
      intro role' hrole' row hrow
      have hdue := hexact role' hrole' row hrow
      rw [due, Pending.add, if_neg] at hdue
      · exact hdue
      · rintro ⟨rfl, rfl⟩
        exact forall_ne_of_find hunlisted row hrow rfl
  | @seat _ _ proposals found node hfound hnode hsame =>
      obtain ⟨a, b, hsplit, hplace⟩ := split_of_find hfound
      have hdue (role' : Role) (hrole' : role' ≠ .committee) (row : Candidate)
          (hrow : row ∈ r.cands role') :
          due base magnification { r with proposals := proposals } p role' row.address =
            some row.stake := by
        rw [due, hsame role' row.address hrole']
        exact hexact role' hrole' row hrow
      refine exact_save (by decide) (fun role' hrole' _ row hrow => hdue role' hrole' row hrow)
        fun row hrow => ?_
      rw [hplace, show r.valCands = a ++ found :: b from hsplit, List.set_append_right _ _ le_rfl,
        Nat.sub_self, List.set_cons_zero, List.perm_middle.mem_iff, List.mem_cons] at hrow
      have hold := hdue .validator (by decide)
      rw [hsplit] at hold
      rcases hrow with rfl | hrow
      · exact hold found (List.mem_append_right _ (List.mem_cons_self ..))
      · refine hold row ?_
        rw [List.perm_middle.mem_iff]
        exact List.mem_cons_of_mem _ hrow

/-- A pledge is approved or raised: the stakes stay exact if nothing is on record for one
who is new on the list. -/
theorem exact_pledge (hmove : Move cfg kind r p r' p') (hpledge : kind = .pledge)
    (hranked : Ranked r)
    (hmagnification : cfg.printed .pledgeMagnification = magnification)
    (hnew : ∀ role, role ≠ .committee → ∀ row ∈ r'.cands role,
      (∀ row' ∈ r.cands role, row'.address ≠ row.address) →
        r'.votes role row.address + base role row.address + p role row.address = 0)
    (hexact : Exact base magnification r p) : Exact base magnification r' p' := by
  cases hmove with
  | papers | config | leave | vote | drop | settle | seat => cases hpledge
  | withdraw _ hkind | forget _ hkind =>
      rcases hkind with ⟨rfl, -⟩ | rfl <;> cases hpledge
  | @pass _ _ _ proposals role address pledge hrole hkind hfresh hset =>
      rw [hkind.toCString (hpledge.trans_ne nofun)] at hfresh hset
      intro role' hrole' row hrow
      refine (due_of_ne hset hrole' fun heq => ?_).trans (hexact role' hrole' row hrow)
      obtain ⟨rfl, rfl⟩ := Prod.mk.inj heq
      exact hranked.forall_ne hrole hfresh row hrow rfl
  | @enlist _ _ _ proposals role row saved pledge hrole hkind hfresh hset hstake hnode hsaved =>
      rw [hkind.toCString (hpledge.trans_ne nofun)] at hfresh hset
      have hothers := hranked.forall_ne hrole hfresh
      refine exact_save hrole (fun role' hrole' hne row hrow => ?_) fun row hrow => ?_
      · rw [due_of_ne hset hrole' fun heq => hne (Prod.mk.inj heq).1]
        exact hexact role' hrole' row hrow
      · have hsorted := hrow
        rw [hsaved] at hsorted
        have hrows := (perm_sortRows _).mem_iff.mp (List.mem_of_mem_take hsorted)
        rcases List.mem_append.mp hrows with hold | hold
        · rw [due_of_ne hset hrole fun heq => hothers row hold (Prod.mk.inj heq).2]
          exact hexact role hrole row hold
        · obtain rfl := List.mem_singleton.mp hold
          have hzero := hnew role hrole _ (by rw [cands_save hrole hrole, if_pos rfl]; exact hrow)
            hothers
          rw [Register.votes, voters_save] at hzero
          rw [due, hset.1, Option.map_some, hstake, hmagnification, Option.some_inj]
          change pledge * magnification + total _ r.voters + base role row.address + _ = _
          linarith!
  | @raise _ _ proposals role found amount old hrole hfound hold hset =>
      have hbefore : Ranked { r with proposals := proposals } :=
        hranked.of_same fun role' hrole' row hrow =>
          hset.ne_none hrole' (hranked.approved role' hrole' row hrow)
      refine exact_restake hbefore hrole hfound (fun role' hrole' row hrow hne => ?_) ?_
      · rw [due_of_ne hset hrole' hne]
        exact hexact role' hrole' row hrow
      · have hdue := hexact role hrole found (List.mem_of_find?_eq_some hfound)
        rw [due, hold, Option.map_some, Option.some_inj] at hdue
        rw [due, hset.1, Option.map_some, Option.some_inj, hmagnification, ← hdue]
        change (old + amount) * magnification + r.votes role found.address + _ + _ = _
        ring

/-! ## Histories -/

/-- The votes for a candidate that are on record. -/
def World.votesFor (role : Role) (address : Address) (w : World) : ℤ :=
  w.register.votes role address

/-- What a candidate begins with: the initial validators have the amounts of the ledger. -/
def initialStake (validators : List (Address × ℤ)) (role : Role) (address : Address) : ℤ :=
  if role = .validator then (validators.lookup address).getD 0 else 0

/-- The stakes are exact in a state. -/
def World.Exact (base : Role → Address → ℤ) (w : World) : Prop :=
  ∀ role, role ≠ .committee → ∀ row ∈ w.register.cands role,
    ∃ pledge, approved w.storage.proposals role row.address = some pledge ∧
      row.stake = pledge * w.storage.config.int .pledgeMagnification + w.votesFor role row.address +
        base role row.address

/-- Somebody is listed who was not, and for whom something is on record. -/
def Relisted (base : Role → Address → ℤ) (w w' : World) : Prop :=
  ∃ role ∈ [Role.validator, .kol], ∃ row ∈ w'.register.cands role,
    (∀ row' ∈ w.register.cands role, row'.address ≠ row.address) ∧
      w'.votesFor role row.address + base role row.address ≠ 0

instance (w w' : World) : Decidable (Relisted base w w') :=
  inferInstanceAs (Decidable (∃ role ∈ [Role.validator, .kol], _))

/-- The stakes are exact and the lists in order. -/
def exactOf (base : Role → Address → ℤ) (magnification : ℤ) : Invariant where
  holds r p := Ranked r ∧ Dpos.Exact base magnification r p
  good _ := True
  allowed := Kind.Quiet
  other := ⟨nofun, nofun, nofun⟩
  config _ := trivial
  move := by
    rintro cfg kind r p r' p' - hquiet hmove ⟨hranked, hexact⟩
    exact ⟨ranked_move hmove hquiet.2.1 hranked, exact_move hmove hquiet hranked hexact⟩

/-- The address whose votes are paid back is the one that the host sees. -/
def Method.PlainVote : Method → Prop
  | .unVote _ address => 0 ∉ address
  | _ => True

theorem ne_strayVote_of_makes {method : Method} (hplain : method.PlainVote)
    (hmakes : method.Makes kind) : kind ≠ .strayVote := by
  rintro rfl
  unfold Method.Makes at hmakes
  split at hmakes
  case h_4 => exact hplain (hmakes.resolve_left nofun).1
  all_goals simp at hmakes

theorem allows_exactOf {method : Method}
    (hquiet : method.lists = false ∧ method.Plain ∧ method.PlainVote) :
    (exactOf base magnification).Allows method :=
  fun _ hmakes => ⟨ne_pledge_of_makes hquiet.1 hmakes, ne_stray_of_makes hquiet.2.1 hmakes,
    ne_strayVote_of_makes hquiet.2.2 hmakes⟩

/-- **One step.** -/
theorem exact_step {st : Step} (hcalls : st.Calls fun method => method.Plain ∧ method.PlainVote)
    (hwithin : st.Within fun method => method.lists = false ∧ method.Plain ∧ method.PlainVote)
    (hconfig : SameConfig w (step host w st)) (hlisted : ¬ Relisted base w (step host w st))
    (hranked : Ranked w.register)
    (hexact : Dpos.Exact base (w.storage.config.printed .pledgeMagnification) w.register 0) :
    Ranked (step host w st).register ∧
      Dpos.Exact base ((step host w st).storage.config.printed .pledgeMagnification)
        (step host w st).register 0 := by
  rw [hconfig]
  rcases step_cases host w st with
    ⟨-, hsame⟩ | ⟨msg, method, reactions, w₀, rfl, hstorage, hregister, hmain⟩
  · rw [hsame]
    exact ⟨hranked, hexact⟩
  · obtain ⟨hplain, hvote⟩ := hcalls
    generalize step host w _ = w₁ at hmain hconfig hlisted ⊢
    by_cases hlists : method.lists = false
    · have hreceive : (exactOf base (w.storage.config.printed .pledgeMagnification)).Receives
          fun i => react host (reactions i) := fun i w w' p hreact =>
        Invariant.react (reactions i) ((hwithin i).imp fun _ h => allows_exactOf h) hreact
      refine Invariant.main hreceive (allows_exactOf ⟨hlists, hplain, hvote⟩) hmain ?_
      rw [hregister]
      exact ⟨hranked, hexact⟩
    · have hpays : method.pays = false := by
        cases method <;> first | rfl | exact absurd rfl hlists
      obtain ⟨kind, hmakes, hmove⟩ := move_main (p := 0) hpays hmain
      rw [hregister, hstorage] at hmove
      have hstray := ne_stray_of_makes hplain hmakes
      refine ⟨ranked_move hmove hstray hranked, ?_⟩
      by_cases hpledge : kind = .pledge
      · subst hpledge
        refine exact_pledge hmove rfl hranked rfl (fun role hrole row hrow hnew => ?_) hexact
        refine (add_zero _).trans ?_
        by_contra hne
        refine hlisted ⟨role, ?_, row, hrow, hnew, hne⟩
        cases role with
        | committee => exact absurd rfl hrole
        | validator => decide
        | kol => decide
      · exact exact_move hmove ⟨hpledge, hstray, ne_strayVote_of_makes hvote hmakes⟩ hranked hexact

theorem exact_initialization {logicContract : Address} {committee : List Address}
    {validators : List (Address × ℤ)} {balance : ℕ}
    (hinit : initialization host msg logicContract committee validators balance = some w)
    (hnodup : (validators.map Prod.fst).Nodup) (hplain : ∀ row ∈ validators, 0 ∉ row.1) :
    Dpos.Exact (initialStake validators) (w.storage.config.printed .pledgeMagnification)
      w.register 0 := by
  obtain ⟨-, hval, hkol, hvoters, -, happroved⟩ := of_initialization hinit
  have hperm := perm_sortRows (validators.map fun row => ⟨row.1, row.2, some row.1⟩)
  intro role hrole row hrow
  cases role with
  | committee => exact absurd rfl hrole
  | kol =>
      change row ∈ w.storage.kolCands at hrow
      rw [hkol] at hrow
      cases hrow
  | validator =>
      change row ∈ w.storage.valCands at hrow
      rw [hval, hperm.mem_iff] at hrow
      obtain ⟨⟨address, stake⟩, hmem, rfl⟩ := List.mem_map.mp hrow
      have hlookup : validators.lookup address = some stake :=
        (OrderedMap.lookup_eq_some_iff hnodup).mpr hmem
      have hvotes : w.register.votes .validator address = 0 := by
        rw [Register.votes, show w.register.voters = ∅ from hvoters]
        rfl
      have happroved' : approved w.register.proposals .validator address = some 0 := by
        have hzero := happroved _ hmem
        rwa [toCString_of_not_mem (hplain _ hmem)] at hzero
      rw [due, happroved', Option.map_some, hvotes, initialStake, if_pos rfl, hlookup,
        Option.some_inj]
      change 0 * _ + 0 + stake + 0 = stake
      ring

theorem printed_initialConfig (logicContract : Address) :
    (initialConfig logicContract).printed .pledgeMagnification =
      (initialConfig logicContract).int .pledgeMagnification :=
  Number.print_of_lt (n := 2) (by decide)

/-- **The stakes are exact** in every state of a history without changes of the
configuration, in which nobody is listed for whom votes are on record or who began as a
validator, no account that is paid has a candidate listed before the payment returns, and
no address that is approved, abolished or not voted for any more ends for the host before it
ends for the caller. -/
theorem exact_states {logicContract : Address} {committee : List Address}
    {validators : List (Address × ℤ)} {balance : ℕ}
    (hinit : initialization host msg logicContract committee validators balance = some w)
    (hnodup : (validators.map Prod.fst).Nodup) (hplain : ∀ row ∈ validators, 0 ∉ row.1)
    {steps : List Step}
    (hcalls : ∀ st ∈ steps, st.Calls fun method => method.Plain ∧ method.PlainVote)
    (hwithin : ∀ st ∈ steps, st.Within fun method =>
      method.lists = false ∧ method.Plain ∧ method.PlainVote)
    (hsteps : (states host w steps).IsChain fun w w' =>
      SameConfig w w' ∧ ¬ Relisted (initialStake validators) w w') :
    ∀ w' ∈ states host w steps, w'.Exact (initialStake validators) := by
  have hall : ∀ w' ∈ states host w steps, w'.storage.config = initialConfig logicContract ∧
      Ranked w'.register ∧ Dpos.Exact (initialStake validators)
        (w'.storage.config.printed .pledgeMagnification) w'.register 0 :=
    states_invariant (q := fun st => st.Calls _ ∧ st.Within _)
      (fun hst hrel h => ⟨hrel.1.trans h.1, exact_step hst.1 hst.2 hrel.1 hrel.2 h.2.1 h.2.2⟩)
      ⟨(of_initialization hinit).1, ranked_initialization hinit hnodup hplain,
        exact_initialization hinit hnodup hplain⟩
      (fun st hst => ⟨hcalls st hst, hwithin st hst⟩) hsteps
  intro w' hmem role hrole row hrow
  obtain ⟨hconfig, -, hexact⟩ := hall w' hmem
  rw [hconfig, printed_initialConfig] at hexact
  obtain ⟨pledge, happroved, hstake⟩ := Option.map_eq_some_iff.mp (hexact role hrole row hrow)
  rw [hconfig]
  exact ⟨pledge, happroved, hstake.symm.trans (add_zero _)⟩

/-- `[5]` becomes a candidate. -/
def candidacy (timestamp : ℤ) : List Step :=
  [coinCall [5] 300000000000000 timestamp (.apply .validator none none none),
    plainCall [1] timestamp (.approve .apply (.role .validator) [5]),
    plainCall [2] timestamp (.approve .apply (.role .validator) [5])]

/-- `[6]` votes for `[5]`, which then leaves. -/
def votedHistory : List Step :=
  candidacy 1 ++
    [coinCall [6] 1000000000 2 (.vote .validator [5]), plainCall [5] 3 (.withdraw .validator)]

theorem exact_states_voted :
    ∃ w ∈ states sampleHost (sampleWorld [([3], 7)]) votedHistory,
      w.Exact (initialStake [([3], 7)]) ∧ w.votesFor .validator [5] = 1000000000 := by
  obtain ⟨w, hw, hvotes⟩ : ∃ w ∈ states sampleHost (sampleWorld [([3], 7)]) votedHistory,
      w.votesFor .validator [5] = 1000000000 := by
    decide +kernel
  refine ⟨w, hw, ?_, hvotes⟩
  have hcalls : ∀ st ∈ votedHistory,
      st.Calls (fun method => method.Plain ∧ method.PlainVote) ∧
        st.Within (fun method => method.lists = false ∧ method.Plain ∧ method.PlainVote) := by
    intro st hst
    simp only [votedHistory, candidacy, coinCall, plainCall, List.cons_append, List.nil_append,
      List.mem_cons, List.not_mem_nil, or_false] at hst
    rcases hst with rfl | rfl | rfl | rfl | rfl <;>
      simp [Step.Calls, Step.Within, Reaction.All, Method.Plain, Method.PlainVote]
  exact exact_states (initialization_sample _) (by decide) (by decide)
    (fun st hst => (hcalls st hst).1) (fun st hst => (hcalls st hst).2) (by decide +kernel) w hw

/-- `[5]` comes back, and its stake is the pledge without the vote that is on record. -/
theorem inexact_states_voted :
    let history := states sampleHost (sampleWorld [([3], 7)]) (votedHistory ++ candidacy 4)
    history.IsChain SameConfig ∧ ∃ w ∈ history, ¬ w.Exact (initialStake [([3], 7)]) ∧
      w.votesFor .validator [5] = 1000000000 ∧
      approved w.storage.proposals .validator [5] = some 300000000000000 ∧
      ⟨[5], 600000000000000, some [5]⟩ ∈ w.storage.valCands := by
  intro history
  have hfound : history.IsChain SameConfig ∧ ∃ w ∈ history,
      w.votesFor .validator [5] = 1000000000 ∧
      approved w.storage.proposals .validator [5] = some 300000000000000 ∧
      ⟨[5], 600000000000000, some [5]⟩ ∈ w.storage.valCands ∧
      w.storage.config.int .pledgeMagnification = 2 := by
    decide +kernel
  obtain ⟨hconfig, w, hw, hvotes, happroved, hrow, hmagnification⟩ := hfound
  refine ⟨hconfig, w, hw, fun hexact => ?_, hvotes, happroved, hrow⟩
  obtain ⟨pledge, hpledge, hstake⟩ := hexact .validator (by decide) _ hrow
  rw [happroved, Option.some_inj] at hpledge
  rw [← hpledge, hmagnification, hvotes] at hstake
  revert hstake
  decide

end CegChain.Dpos
