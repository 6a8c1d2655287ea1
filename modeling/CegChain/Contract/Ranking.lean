import CegChain.Contract.Register
import CegChain.Lib.Ranking

/-!
# The candidate lists

Both lists are sorted and each node is on the validators' list once (`Ordered`): every move
keeps this, whatever the accounts do that are paid.  As long as no caller hides a part of an
address behind a zero character, the lists are also strictly sorted, each owner is on a list
once, and whoever is on a list has an approved application (`Ranked`).
-/

namespace CegChain.Dpos

open Layers Register Totals Ranking

variable {host : Host} {msg : Msg} {w w₁ : World} {l m : List Candidate} {cfg : Config}
  {p p' : Pending} {r r' : Register} {kind : Kind}

/-! ## The order of the rows -/

namespace Candidate

/-- Strictly before in the order of `doubleSort`. -/
def Before (a b : Candidate) : Prop :=
  b.stake < a.stake ∨ (a.stake = b.stake ∧ a.address < b.address)

instance (a b : Candidate) : Decidable (a.Before b) :=
  inferInstanceAs (Decidable (_ ∨ _))

end Candidate

theorem doubleSort_iff {a b : Candidate} :
    doubleSort a b = true ↔ RankLE Candidate.stake Candidate.address a b := by
  simp [doubleSort, RankLE]

theorem before_of_doubleSort {a b : Candidate} (hab : doubleSort a b = true)
    (hne : a.address ≠ b.address) : a.Before b :=
  (doubleSort_iff.mp hab).lt_of_ne hne

instance : Std.Total fun a b : Candidate => doubleSort a b = true where
  total a b := by
    rw [doubleSort_iff, doubleSort_iff]
    exact RankLE.total a b

instance : IsTrans Candidate fun a b : Candidate => doubleSort a b = true where
  trans a b c hab hbc := by
    rw [doubleSort_iff] at hab hbc ⊢
    exact hab.trans hbc

/-- A list is sorted. -/
def Sorted (l : List Candidate) : Prop :=
  l.Pairwise fun a b => doubleSort a b = true

theorem sorted_sortRows (l : List Candidate) : Sorted (sortRows l) :=
  List.pairwise_insertionSort _ l

/-- A list is strictly sorted and has each owner once. -/
structure ListRanked (l : List Candidate) : Prop where
  sorted : l.Pairwise Candidate.Before
  owners : (l.map Candidate.address).Nodup

/-- Different owners make the order strict. -/
theorem Sorted.listRanked (hsorted : Sorted l) (howners : (l.map Candidate.address).Nodup) :
    ListRanked l :=
  ⟨(hsorted.and (List.pairwise_map.mp howners)).imp fun h => before_of_doubleSort h.1 h.2, howners⟩

/-- The place of the first row that meets a condition. -/
theorem findIdx_split {a b : List Candidate} {x : Candidate} {q : Candidate → Prop}
    [DecidablePred q] (hbefore : ∀ row ∈ a, ¬ q row) (hx : q x) :
    (a ++ x :: b).findIdx (q ·) = a.length := by
  have hnone : a.findIdx (fun row => decide (q row)) = a.length :=
    List.findIdx_eq_length.mpr fun row hrow => decide_eq_false (hbefore row hrow)
  rw [List.findIdx_append, hnone, if_neg (lt_irrefl _), List.findIdx_cons, decide_eq_true hx]
  exact Nat.zero_add _

namespace Register

variable {role role' : Role} {candidates : List Candidate} {update : Bool} {address : Address}
  {found : Candidate}

theorem cands_setCands (hrole : role ≠ .committee) (hrole' : role' ≠ .committee) :
    (r.setCands role candidates).cands role' =
      if role' = role then candidates else r.cands role' := by
  cases role <;> cases role' <;> first | rfl | contradiction

theorem cands_save (hrole : role ≠ .committee) (hrole' : role' ≠ .committee) :
    (r.save cfg role candidates update).cands role' =
      if role' = role then candidates else r.cands role' := by
  rw [← cands_setCands hrole hrole', save]
  split <;> rfl

theorem voters_save : (r.save cfg role candidates update).voters = r.voters := by
  unfold save setCands
  split <;> split <;> rfl

theorem config_save : (r.save cfg role candidates update).config = r.config := by
  unfold save setCands
  split <;> split <;> rfl

/-- The row of an address, and those before and behind it. -/
theorem split_of_find (hfound : r.find role found.address = some found) :
    ∃ a b, r.cands role = a ++ found :: b ∧ r.place role found.address = a.length := by
  obtain ⟨-, a, b, hsplit, hbefore⟩ := List.find?_eq_some_iff_append.mp hfound
  refine ⟨a, b, hsplit, ?_⟩
  rw [place, hsplit]
  exact findIdx_split (fun row hrow => by simpa using hbefore row hrow) rfl

theorem exists_of_find_ne_none (hlisted : r.find role address ≠ none) :
    ∃ found, found.address = address ∧ r.find role found.address = some found := by
  obtain ⟨found, hfound⟩ := Option.ne_none_iff_exists'.mp hlisted
  have haddress : found.address = address := of_decide_eq_true (List.find?_some hfound :)
  exact ⟨found, haddress, haddress ▸ hfound⟩

theorem forall_ne_of_find (hunlisted : r.find role address = none) :
    ∀ row ∈ r.cands role, row.address ≠ address := by
  intro row hrow
  simpa using List.find?_eq_none.mp hunlisted row hrow

end Register

/-! ## Rows that come, change and go -/

/-- A row is put among sorted ones. -/
theorem exists_sorted_append (x : Candidate) (hl : Sorted l) :
    ∃ a b, sortRows (l ++ [x]) = a ++ x :: b ∧ l = a ++ b :=
  exists_place_of_sublist (List.sublist_insertionSort hl (List.sublist_append_left l [x]))
    ((perm_sortRows _).trans (List.perm_append_singleton x l))

/-- The stake of a row changes, and the row goes to its new place. -/
theorem exists_sorted_set {a b : List Candidate} {found : Candidate} (row : Candidate)
    (hl : Sorted (a ++ found :: b)) :
    ∃ a' b', sortRows ((a ++ found :: b).set a.length row) = a' ++ row :: b' ∧
      a ++ b = a' ++ b' := by
  rw [List.set_append_right _ _ le_rfl, Nat.sub_self, List.set_cons_zero]
  have hrest : Sorted (a ++ b) :=
    hl.sublist ((List.Sublist.refl a).append (List.sublist_cons_self found b))
  exact exists_place_of_sublist
    (List.sublist_insertionSort hrest ((List.Sublist.refl a).append (List.sublist_cons_self row b)))
    ((perm_sortRows _).trans List.perm_middle)

/-- What `restake` puts in the place of a list.  The row is found again unless another one is
equal to it. -/
theorem exists_restake {role : Role} {found : Candidate} (cfg : Config) (stake : ℤ)
    (hl : Sorted (r.cands role)) (hfound : r.find role found.address = some found) :
    ∃ a b a' b' update, r.cands role = a ++ found :: b ∧ a ++ b = a' ++ b' ∧
      Sorted (a' ++ { found with stake := stake } :: b') ∧
      r.restake cfg role found stake =
        r.save cfg role (a' ++ { found with stake := stake } :: b') update ∧
      ({ found with stake := stake } ∉ a ++ b →
        update = decide (crosses (formalSize role cfg) a.length a'.length)) := by
  obtain ⟨a, b, hsplit, hplace⟩ := split_of_find hfound
  rw [hsplit] at hl
  obtain ⟨a', b', hsorted, hrest⟩ := exists_sorted_set { found with stake := stake } hl
  have hplaced : { found with stake := stake } ∉ a ++ b →
      (a' ++ { found with stake := stake } :: b').findIdx
        (· = { found with stake := stake }) = a'.length := by
    rw [hrest]
    rintro hother
    refine findIdx_split (fun row hrow => ?_) rfl
    rintro rfl
    exact hother (List.mem_append_left _ hrow)
  rw [restake, hplace, hsplit, hsorted]
  refine ⟨a, b, a', b', _, rfl, hrest, hsorted ▸ sorted_sortRows _, rfl, fun hother => ?_⟩
  rw [hplaced hother]

/-- A row goes. -/
theorem sortRows_eraseIdx {a b : List Candidate} {found : Candidate}
    (hl : Sorted (a ++ found :: b)) :
    sortRows ((a ++ found :: b).eraseIdx a.length) = a ++ b := by
  rw [List.eraseIdx_append_of_length_le le_rfl, Nat.sub_self, List.eraseIdx_cons_zero]
  exact (hl.sublist
    ((List.Sublist.refl a).append (List.sublist_cons_self found b))).insertionSort_eq

/-- The node of a row changes. -/
theorem sorted_setNode {a b : List Candidate} {found : Candidate} (node : Option Address)
    (hl : Sorted (a ++ found :: b)) : Sorted (a ++ { found with node := node } :: b) := by
  rw [Sorted, List.pairwise_append, List.pairwise_cons] at hl ⊢
  obtain ⟨ha, ⟨hfound, hb⟩, hab⟩ := hl
  refine ⟨ha, ⟨hfound, hb⟩, fun x hx y hy => ?_⟩
  rcases List.mem_cons.mp hy with rfl | hy
  · exact hab x hx found (List.mem_cons_self ..)
  · exact hab x hx y (List.mem_cons_of_mem _ hy)

/-! ## The invariant of the lists -/

/-- The lists are sorted, and no two validators have one node. -/
structure Ordered (r : Register) : Prop where
  sorted : ∀ role, role ≠ .committee → Sorted (r.cands role)
  nodes : (r.valCands.map Candidate.node).Nodup

/-- The rule for a list that is saved. -/
theorem Ordered.save {role : Role} {candidates : List Candidate} (hordered : Ordered r)
    (hrole : role ≠ .committee) (hsorted : Sorted candidates)
    (hnodes : role = .validator → (candidates.map Candidate.node).Nodup) (update : Bool) :
    Ordered (r.save cfg role candidates update) := by
  refine ⟨fun role' hrole' => ?_, ?_⟩
  · rw [cands_save hrole hrole']
    split
    · exact hsorted
    · exact hordered.sorted role' hrole'
  · change (((r.save cfg role candidates update).cands .validator).map _).Nodup
    rw [cands_save hrole (by decide)]
    split
    · rename_i heq
      exact hnodes heq.symm
    · exact hordered.nodes

theorem Ordered.restake {role : Role} {found : Candidate} (hordered : Ordered r)
    (hrole : role ≠ .committee) (hfound : r.find role found.address = some found) (stake : ℤ) :
    Ordered (r.restake cfg role found stake) := by
  obtain ⟨a, b, a', b', update, hsplit, hrest, hsorted, hrestake, -⟩ :=
    exists_restake cfg stake (hordered.sorted role hrole) hfound
  rw [hrestake]
  refine hordered.save hrole hsorted (fun hvalidator => ?_) _
  have hnodes := hordered.nodes
  rw [show r.valCands = r.cands .validator from rfl, ← hvalidator, hsplit, List.map_append,
    List.map_cons, List.perm_middle.nodup_iff, ← List.map_append, hrest] at hnodes
  rw [List.map_append, List.map_cons, List.perm_middle.nodup_iff, ← List.map_append]
  exact hnodes

/-- **Every move keeps the lists sorted**, with each node once. -/
theorem ordered_move (hmove : Move cfg kind r p r' p') (hordered : Ordered r) : Ordered r' := by
  cases hmove with
  | papers | config | pass | withdraw | drop => exact ⟨hordered.sorted, hordered.nodes⟩
  | forget => exact hordered
  | @enlist _ _ _ proposals role row saved pledge hrole hkind hnew hset hstake hnode hsaved =>
      obtain ⟨a, b, hsorted, hsplit⟩ := exists_sorted_append row (hordered.sorted role hrole)
      have hsub : saved.Sublist _ := hsaved ▸ List.take_sublist _ _
      have hbefore : Ordered { r with proposals := proposals } :=
        ⟨hordered.sorted, hordered.nodes⟩
      refine hbefore.save hrole ((sorted_sortRows _).sublist hsub) (fun hvalidator => ?_) _
      refine List.Nodup.sublist (hsub.map _) ?_
      rw [hsorted, List.map_append, List.map_cons]
      refine List.perm_middle.nodup_iff.mpr (List.nodup_cons.mpr ⟨?_, ?_⟩)
      · rw [← List.map_append, ← hsplit]
        rintro hmem
        obtain ⟨row', hrow', heq⟩ := List.mem_map.mp hmem
        exact hnode hvalidator row' hrow' heq
      · rw [← List.map_append, ← hsplit, hvalidator]
        exact hordered.nodes
  | @raise _ _ proposals role found amount old hrole hfound hold hset =>
      have hbefore : Ordered { r with proposals := proposals } :=
        ⟨hordered.sorted, hordered.nodes⟩
      exact hbefore.restake hrole hfound _
  | @leave _ _ proposals role address hrole hlisted hset =>
      obtain ⟨found, rfl, hfound⟩ := exists_of_find_ne_none hlisted
      obtain ⟨a, b, hsplit, hplace⟩ := split_of_find hfound
      have hbefore : Ordered { r with proposals := proposals } :=
        ⟨hordered.sorted, hordered.nodes⟩
      refine hbefore.save hrole (sorted_sortRows _) (fun hvalidator => ?_) _
      refine ((perm_sortRows _).map _).nodup_iff.mpr (List.Nodup.sublist
        ((List.eraseIdx_sublist ..).map _) ?_)
      rw [hvalidator]
      exact hordered.nodes
  | @vote _ _ role voter found amount votes hrole hfound _ =>
      have hbefore :
          Ordered { r with voters := r.voters.insert (voterKey voter role found.address) votes } :=
        ⟨hordered.sorted, hordered.nodes⟩
      exact hbefore.restake hrole hfound _
  | settle hrole hfound => exact hordered.restake hrole hfound _
  | @seat _ _ proposals found node hfound hnode hsame =>
      obtain ⟨a, b, hsplit, hplace⟩ := split_of_find hfound
      have hcands : r.valCands = a ++ found :: b := hsplit
      have hsorted := hordered.sorted .validator (by decide)
      rw [hsplit] at hsorted
      rw [hplace, hcands, List.set_append_right _ _ le_rfl, Nat.sub_self, List.set_cons_zero]
      have hbefore : Ordered { r with proposals := proposals } :=
        ⟨hordered.sorted, hordered.nodes⟩
      refine hbefore.save (by decide) (sorted_setNode (some node) hsorted) (fun _ => ?_) _
      have hnodes := hordered.nodes
      rw [hcands, List.map_append, List.map_cons, List.perm_middle.nodup_iff,
        List.nodup_cons] at hnodes
      rw [List.map_append, List.map_cons, List.perm_middle.nodup_iff, List.nodup_cons]
      refine ⟨fun hmem => ?_, hnodes.2⟩
      rw [← List.map_append] at hmem
      obtain ⟨row, hrow, heq⟩ := List.mem_map.mp hmem
      refine hnode row ?_ heq
      rw [hcands]
      exact ((List.Sublist.refl a).append (List.sublist_cons_self found b)).subset hrow

/-- The lists are in order, and whoever is listed is listed once, approved, and has an address
without a zero character. -/
structure Ranked (r : Register) : Prop extends Ordered r where
  owners : ∀ role, role ≠ .committee → ((r.cands role).map Candidate.address).Nodup
  plain : ∀ role, role ≠ .committee → ∀ row ∈ r.cands role, 0 ∉ row.address
  approved : ∀ role, role ≠ .committee → ∀ row ∈ r.cands role,
    approved r.proposals role row.address ≠ none

theorem Ranked.lists {role : Role} (hranked : Ranked r) (hrole : role ≠ .committee) :
    ListRanked (r.cands role) :=
  (hranked.sorted role hrole).listRanked (hranked.owners role hrole)

theorem Ranked.of_same {proposals : Table ProposalKey Proposal} (hranked : Ranked r)
    (happroved : ∀ role, role ≠ .committee → ∀ row ∈ r.cands role,
      Dpos.approved proposals role row.address ≠ none) :
    Ranked { r with proposals := proposals } :=
  ⟨⟨hranked.sorted, hranked.nodes⟩, hranked.owners, hranked.plain, happroved⟩

/-- The rule for a list that is saved, in terms of its owners. -/
theorem Ranked.save {role : Role} {candidates : List Candidate} {update : Bool}
    (hranked : Ranked r) (hrole : role ≠ .committee)
    (hordered : Ordered (r.save cfg role candidates update))
    (howners : (candidates.map Candidate.address).Nodup)
    (hrows : ∀ address ∈ candidates.map Candidate.address,
      0 ∉ address ∧ Dpos.approved r.proposals role address ≠ none) :
    Ranked (r.save cfg role candidates update) := by
  refine ⟨hordered, fun role' hrole' => ?_, fun role' hrole' row hrow => ?_,
    fun role' hrole' row hrow => ?_⟩
  · rw [cands_save hrole hrole']
    split
    · exact howners
    · exact hranked.owners role' hrole'
  · rw [cands_save hrole hrole'] at hrow
    split at hrow
    · exact (hrows _ (List.mem_map_of_mem hrow)).1
    · exact hranked.plain role' hrole' row hrow
  · rw [cands_save hrole hrole'] at hrow
    rw [proposals_save]
    split at hrow
    · rename_i heq
      exact heq ▸ (hrows _ (List.mem_map_of_mem hrow)).2
    · exact hranked.approved role' hrole' row hrow

/-- The owners stay the same. -/
theorem Ranked.save_perm {role : Role} {candidates : List Candidate} {update : Bool}
    (hranked : Ranked r) (hrole : role ≠ .committee)
    (hordered : Ordered (r.save cfg role candidates update))
    (hperm : (candidates.map Candidate.address).Perm ((r.cands role).map Candidate.address)) :
    Ranked (r.save cfg role candidates update) := by
  refine hranked.save hrole hordered (hperm.nodup_iff.mpr (hranked.owners role hrole))
    fun address hmem => ?_
  obtain ⟨row, hrow, rfl⟩ := List.mem_map.mp (hperm.mem_iff.mp hmem)
  exact ⟨hranked.plain role hrole row hrow, hranked.approved role hrole row hrow⟩

theorem SetApproved.ne_none {role : Role} {address : Address} {pledge : ℤ}
    {proposals proposals' : Table ProposalKey Proposal}
    (hset : SetApproved role address (some pledge) proposals proposals') {role' : Role}
    {address' : Address} (hrole' : role' ≠ .committee)
    (hbefore : approved proposals role' address' ≠ none) :
    approved proposals' role' address' ≠ none := by
  by_cases heq : (role', address') = (role, address)
  · obtain ⟨rfl, rfl⟩ := Prod.mk.inj heq
    rw [hset.1]
    exact Option.some_ne_none pledge
  · rw [hset.2 role' address' hrole' heq]
    exact hbefore

/-- An application that is new is not on the list. -/
theorem Ranked.forall_ne {role : Role} {address : Address} (hranked : Ranked r)
    (hrole : role ≠ .committee)
    (hnew : Dpos.approved r.proposals role address = none ∨ r.find role address = none) :
    ∀ row ∈ r.cands role, row.address ≠ address := by
  rcases hnew with hnone | hunlisted
  · rintro row hrow rfl
    exact hranked.approved role hrole row hrow hnone
  · exact forall_ne_of_find hunlisted

theorem Ranked.restake {role : Role} {found : Candidate} (hranked : Ranked r)
    (hrole : role ≠ .committee) (hfound : r.find role found.address = some found) (stake : ℤ) :
    Ranked (r.restake cfg role found stake) := by
  have hordered : Ordered (r.restake cfg role found stake) :=
    hranked.toOrdered.restake hrole hfound stake
  obtain ⟨a, b, a', b', update, hsplit, hrest, -, hrestake, -⟩ :=
    exists_restake cfg stake (hranked.sorted role hrole) hfound
  rw [hrestake] at hordered ⊢
  refine hranked.save_perm hrole hordered ?_
  rw [hsplit, List.map_append, List.map_append, List.map_cons, List.map_cons]
  refine List.perm_middle.trans (List.Perm.trans ?_ List.perm_middle.symm)
  rw [← List.map_append, ← List.map_append, hrest]

theorem Kind.IsFor.not_mem {usual hidden : Kind} {address : Address}
    (hkind : Kind.IsFor usual hidden kind address) (hhidden : kind ≠ hidden) : 0 ∉ address :=
  (hkind.resolve_right hhidden).2

theorem Kind.IsFor.toCString {usual hidden : Kind} {address : Address}
    (hkind : Kind.IsFor usual hidden kind address) (hhidden : kind ≠ hidden) :
    toCString address = address :=
  toCString_of_not_mem (hkind.not_mem hhidden)

/-- **Every move that is not stray keeps the lists in order.** -/
theorem ranked_move (hmove : Move cfg kind r p r' p') (hstray : kind ≠ .stray)
    (hranked : Ranked r) : Ranked r' := by
  have hordered := ordered_move hmove hranked.toOrdered
  cases hmove with
  | papers hsame | config _ _ hsame =>
      refine ⟨hordered, hranked.owners, hranked.plain, fun role hrole row hrow => ?_⟩
      rw [hsame role row.address hrole]
      exact hranked.approved role hrole row hrow
  | pass hrole _ _ hset =>
      exact hranked.of_same fun role' hrole' row hrow =>
        hset.ne_none hrole' (hranked.approved role' hrole' row hrow)
  | @enlist _ _ _ proposals role row saved pledge hrole hkind hnew hset hstake hnode hsaved =>
      rw [hkind.toCString hstray] at hnew hset
      have hbefore : Ranked { r with proposals := proposals } :=
        hranked.of_same fun role' hrole' row hrow =>
          hset.ne_none hrole' (hranked.approved role' hrole' row hrow)
      have hperm : ((sortRows (r.cands role ++ [row])).map Candidate.address).Perm
          (row.address :: (r.cands role).map Candidate.address) :=
        ((perm_sortRows _).trans (List.perm_append_singleton row _)).map _
      have hsub : (saved.map Candidate.address).Sublist _ :=
        (hsaved ▸ List.take_sublist _ _ : saved.Sublist _).map _
      refine hbefore.save hrole hordered (List.Nodup.sublist hsub (hperm.nodup_iff.mpr
        (List.nodup_cons.mpr ⟨fun hmem => ?_, hranked.owners role hrole⟩))) fun address hmem => ?_
      · obtain ⟨row', hrow', heq⟩ := List.mem_map.mp hmem
        exact hranked.forall_ne hrole hnew row' hrow' heq
      · rcases List.mem_cons.mp (hperm.mem_iff.mp (hsub.subset hmem)) with rfl | hmem
        · exact ⟨hkind.not_mem hstray, hset.1 ▸ Option.some_ne_none pledge⟩
        · obtain ⟨row', hrow', rfl⟩ := List.mem_map.mp hmem
          exact ⟨hranked.plain role hrole row' hrow', hbefore.approved role hrole row' hrow'⟩
  | @raise _ _ proposals role found amount old hrole hfound hold hset =>
      have hbefore : Ranked { r with proposals := proposals } :=
        hranked.of_same fun role' hrole' row hrow =>
          hset.ne_none hrole' (hranked.approved role' hrole' row hrow)
      exact hbefore.restake hrole hfound _
  | @leave _ _ proposals role address hrole hlisted hset =>
      obtain ⟨found, rfl, hfound⟩ := exists_of_find_ne_none hlisted
      obtain ⟨a, b, hsplit, hplace⟩ := split_of_find hfound
      rw [toCString_of_not_mem (hranked.plain role hrole found
        (List.mem_of_find?_eq_some hfound))] at hset
      have howners := hranked.owners role hrole
      have hsorted := hranked.sorted role hrole
      rw [hsplit] at hsorted howners
      rw [List.map_append, List.map_cons, List.perm_middle.nodup_iff, List.nodup_cons,
        ← List.map_append] at howners
      rw [hplace, hsplit, sortRows_eraseIdx hsorted] at hordered ⊢
      have hmem : ∀ row ∈ a ++ b, row ∈ r.cands role := by
        rw [hsplit]
        exact fun row hrow =>
          ((List.Sublist.refl a).append (List.sublist_cons_self found b)).subset hrow
      refine ⟨hordered, fun role' hrole' => ?_, fun role' hrole' row hrow => ?_,
        fun role' hrole' row hrow => ?_⟩
      · rw [cands_save hrole hrole']
        split
        · exact howners.2
        · exact hranked.owners role' hrole'
      · rw [cands_save hrole hrole'] at hrow
        split at hrow
        · rename_i heq
          exact hranked.plain role' hrole' row (heq ▸ hmem row hrow)
        · exact hranked.plain role' hrole' row hrow
      · rw [cands_save hrole hrole'] at hrow
        rw [proposals_save]
        split at hrow
        · -- the others have other addresses
          rename_i heq
          subst heq
          have hother : row.address ≠ found.address :=
            fun heq => howners.1 (heq ▸ List.mem_map_of_mem hrow)
          rw [hset.2 role' row.address hrole' (by simpa using hother)]
          exact hranked.approved role' hrole' row (hmem row hrow)
        · rename_i hne
          rw [hset.2 role' row.address hrole' (by simp [hne])]
          exact hranked.approved role' hrole' row hrow
  | @withdraw _ _ _ proposals role address hrole hkind hunlisted hset =>
      rw [hkind.toCString hstray] at hset
      refine hranked.of_same fun role' hrole' row hrow => ?_
      rw [hset.2 role' row.address hrole' ?_]
      · exact hranked.approved role' hrole' row hrow
      · rintro heq
        obtain ⟨rfl, rfl⟩ := Prod.mk.inj heq
        exact forall_ne_of_find hunlisted row hrow rfl
  | @vote _ _ role voter found amount votes hrole hfound _ =>
      have hbefore :
          Ranked { r with voters := r.voters.insert (voterKey voter role found.address) votes } :=
        ⟨⟨hranked.sorted, hranked.nodes⟩, hranked.owners, hranked.plain, hranked.approved⟩
      exact hbefore.restake hrole hfound _
  | drop => exact ⟨hordered, hranked.owners, hranked.plain, hranked.approved⟩
  | settle hrole hfound => exact hranked.restake hrole hfound _
  | forget => exact hranked
  | @seat _ _ proposals found node hfound hnode hsame =>
      have hbefore : Ranked { r with proposals := proposals } :=
        hranked.of_same fun role' hrole' row hrow => by
          rw [hsame role' row.address hrole']
          exact hranked.approved role' hrole' row hrow
      obtain ⟨a, b, hsplit, hplace⟩ := split_of_find hfound
      have hcands : r.valCands = a ++ found :: b := hsplit
      rw [hplace, hcands, List.set_append_right _ _ le_rfl, Nat.sub_self, List.set_cons_zero]
        at hordered ⊢
      refine hbefore.save_perm (by decide) hordered (.of_eq ?_)
      change _ = r.valCands.map _
      rw [hcands, List.map_append, List.map_append, List.map_cons, List.map_cons]

theorem ranked_papers {proposals : Table ProposalKey Proposal}
    (hsame : SameApproved r.proposals proposals) (hranked : Ranked r) :
    Ranked { r with proposals := proposals } :=
  @ranked_move r.config 0 0 r _ _ (.papers hsame) Kind.other_ne_stray hranked

/-! ## The beginning -/

/-- The first candidates are the validators, with the stakes they have. -/
theorem of_initialization {logicContract : Address} {committee : List Address}
    {validators : List (Address × ℤ)} {balance : ℕ}
    (hinit : initialization host msg logicContract committee validators balance = some w) :
    w.storage.config = initialConfig logicContract ∧
      w.storage.valCands =
        sortRows (validators.map fun row => ⟨row.1, row.2, some row.1⟩) ∧
      w.storage.kolCands = [] ∧ w.storage.voters = ∅ ∧ w.validators = validators ∧
      ∀ row ∈ validators, approved w.storage.proposals .validator (toCString row.1) = some 0 := by
  obtain ⟨-, hinit⟩ := of_assert hinit
  obtain ⟨-, hinit⟩ := of_assert hinit
  obtain rfl := Option.some.inj hinit
  refine ⟨rfl, rfl, rfl, rfl, rfl, fun row hrow => ?_⟩
  -- every proposal of the beginning is approved, without a pledge
  have hfirst (role : Role) (address : Address) :
      let proposal := initProposal msg (initialConfig logicContract) role address
      proposal.passTime.map (fun _ => proposal.amount) = some (0 : ℤ) := by
    cases role <;> rfl
  have hmem (table : Table ProposalKey Proposal) :
      proposalKey .apply (.role .validator) row.1 ∈ validators.foldl
        (fun proposals row => proposals.insert (proposalKey .apply (.role .validator) row.1)
          (initProposal msg (initialConfig logicContract) .validator row.1)) table :=
    mem_foldl_insert (.inr ⟨row, hrow, rfl⟩)
  obtain ⟨proposal, hlookup⟩ :=
    Option.isSome_iff_exists.mp (AList.lookup_isSome.mpr (hmem (committee.foldl _ ∅)))
  refine (approved_of_lookup hlookup).trans ?_
  have hempty : ∀ (key : ProposalKey) (proposal : Proposal),
      (∅ : Table ProposalKey Proposal).lookup key = some proposal →
        proposal.passTime.map (fun _ => proposal.amount) = some (0 : ℤ) := by
    intro key proposal hlookup
    cases hlookup
  refine forall_lookup_foldl (p := fun (_ : ProposalKey) (proposal : Proposal) =>
    proposal.passTime.map (fun _ => proposal.amount) = some (0 : ℤ)) ?_ _ ?_ _ _ hlookup
  · exact fun row => hfirst .validator row.1
  · exact forall_lookup_foldl (p := fun (_ : ProposalKey) (proposal : Proposal) =>
      proposal.passTime.map (fun _ => proposal.amount) = some (0 : ℤ))
      (fun address => hfirst .committee address) _ hempty

theorem ordered_initialization {logicContract : Address} {committee : List Address}
    {validators : List (Address × ℤ)} {balance : ℕ}
    (hinit : initialization host msg logicContract committee validators balance = some w)
    (hnodup : (validators.map Prod.fst).Nodup) : Ordered w.register := by
  obtain ⟨-, hval, hkol, -⟩ := of_initialization hinit
  have hval' : w.register.valCands = _ := hval
  have hkol' : w.register.kolCands = [] := hkol
  refine ⟨fun role hrole => ?_, ?_⟩
  · cases role with
    | committee => exact absurd rfl hrole
    | validator =>
        change Sorted w.register.valCands
        rw [hval']
        exact sorted_sortRows _
    | kol =>
        change Sorted w.register.kolCands
        rw [hkol']
        exact .nil
  · rw [hval', ((perm_sortRows _).map _).nodup_iff, List.map_map]
    have hsome := hnodup.map (Option.some_injective Address)
    rwa [List.map_map] at hsome

theorem ranked_initialization {logicContract : Address} {committee : List Address}
    {validators : List (Address × ℤ)} {balance : ℕ}
    (hinit : initialization host msg logicContract committee validators balance = some w)
    (hnodup : (validators.map Prod.fst).Nodup) (hplain : ∀ row ∈ validators, 0 ∉ row.1) :
    Ranked w.register := by
  obtain ⟨-, hval, hkol, -, -, happroved⟩ := of_initialization hinit
  have hval' : w.register.valCands = _ := hval
  have hkol' : w.register.kolCands = [] := hkol
  have hrow : ∀ role, role ≠ .committee → ∀ row ∈ w.register.cands role,
      ∃ validator ∈ validators, row.address = validator.1 ∧ role = .validator := by
    intro role hrole row hrow
    cases role with
    | committee => exact absurd rfl hrole
    | validator =>
        change row ∈ w.register.valCands at hrow
        rw [hval', (perm_sortRows _).mem_iff] at hrow
        obtain ⟨validator, hmem, rfl⟩ := List.mem_map.mp hrow
        exact ⟨validator, hmem, rfl, rfl⟩
    | kol =>
        change row ∈ w.register.kolCands at hrow
        rw [hkol'] at hrow
        cases hrow
  refine ⟨ordered_initialization hinit hnodup, fun role hrole => ?_, fun role hrole row hmem => ?_,
    fun role hrole row hmem => ?_⟩
  · cases role with
    | committee => exact absurd rfl hrole
    | validator =>
        change (w.register.valCands.map _).Nodup
        rw [hval', ((perm_sortRows _).map _).nodup_iff, List.map_map]
        exact hnodup
    | kol =>
        change (w.register.kolCands.map _).Nodup
        rw [hkol']
        exact .nil
  · obtain ⟨validator, hvalidator, heq, -⟩ := hrow role hrole row hmem
    exact heq ▸ hplain validator hvalidator
  · obtain ⟨validator, hvalidator, heq, rfl⟩ := hrow role hrole row hmem
    have hzero := happroved validator hvalidator
    rw [toCString_of_not_mem (hplain validator hvalidator)] at hzero
    rw [heq]
    exact hzero ▸ Option.some_ne_none 0

end CegChain.Dpos
