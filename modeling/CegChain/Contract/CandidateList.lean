import CegChain.Contract.ValidatorsVote
import CegChain.Lib.Ranking
import Mathlib.Data.Int.ConditionallyCompleteOrder

/-!
# The candidates and the validators

The validators are the head of the candidate list (`Listed`).  The list is kept sorted by a
hand-written insertion, which puts a row where `List.orderedInsert` would
(`insertCandidatesSorted_eq`), and `setValidators` is called only when the place of the row that
has come or gone is among the first.  The shares of a forfeit go to rows from the head on and do
not grow from one row to the next, so that the list stays sorted.

`voteAbolishValidator` relies on this: the validator is among the candidates, and there are as
many rows as there are shares (`elected_head`).  It is so as long as the vote that admits an
applicant spells its address as the record does.  A vote for an address with a zero character
behind it finds the record, but lists the longer string, under which no validator goes.
-/

namespace CegChain.ValidatorsVote

open Layers Ranking
open Dpos (assert int64Add int64Sub int64Mod Msg plainMsg of_bind of_assert)

variable {host : Host} {msg : Msg} {w w₁ : World} {l m : List Candidate} {address : Address}

/-! ## The order of the rows -/

namespace Candidate

/-- The first has the higher amount, or the same amount and the smaller address. -/
def Above (a b : Candidate) : Prop :=
  RankLT Candidate.amount Candidate.address a b

end Candidate

theorem goesBefore_iff {a b : Candidate} :
    goesBefore a b = true ↔ RankLE Candidate.amount Candidate.address a b := by
  simp [goesBefore, RankLE]

instance : Std.Total fun a b : Candidate => goesBefore a b = true where
  total a b := by
    rw [goesBefore_iff, goesBefore_iff]
    exact RankLE.total a b

instance : IsTrans Candidate fun a b : Candidate => goesBefore a b = true where
  trans a b c hab hbc := by
    rw [goesBefore_iff] at hab hbc ⊢
    exact hab.trans hbc

/-- The list is sorted, and has every address once. -/
structure Sorted (l : List Candidate) : Prop where
  pairwise : l.Pairwise fun a b => goesBefore a b = true
  nodup : (l.map Candidate.address).Nodup

/-- The order is strict. -/
theorem Sorted.above (hl : Sorted l) : l.Pairwise Candidate.Above :=
  (hl.pairwise.and (List.pairwise_map.mp hl.nodup)).imp fun h =>
    (goesBefore_iff.mp h.1).lt_of_ne h.2

theorem Sorted.sublist (hl : Sorted l) (hsub : m.Sublist l) : Sorted m :=
  ⟨hl.pairwise.sublist hsub, hl.nodup.sublist (hsub.map _)⟩

theorem sorted_insertionSort (hnodup : (l.map Candidate.address).Nodup) :
    Sorted (l.insertionSort fun x y => goesBefore x y) where
  pairwise := List.pairwise_insertionSort _ l
  nodup := ((List.perm_insertionSort _ l).map _).nodup_iff.mpr hnodup

theorem Sorted.orderedInsert {row : Candidate} (hl : Sorted l)
    (hnew : row.address ∉ l.map Candidate.address) :
    Sorted (l.orderedInsert (fun x y => goesBefore x y) row) where
  pairwise := hl.pairwise.orderedInsert _ _
  nodup := by
    rw [((List.perm_orderedInsert _ row l).map Candidate.address).nodup_iff, List.map_cons]
    exact List.nodup_cons.mpr ⟨hnew, hl.nodup⟩

/-! ## The insertion -/

theorem findIdx_congr {α : Type*} {p q : α → Bool} {l : List α} (heq : ∀ x ∈ l, p x = q x) :
    l.findIdx p = l.findIdx q := by
  induction l with
  | nil => rfl
  | cons x l ih =>
      rw [List.findIdx_cons, List.findIdx_cons, heq x List.mem_cons_self,
        ih fun y hy => heq y (List.mem_cons_of_mem x hy)]

/-- Inserting at the first place at which the row goes before is `orderedInsert`. -/
theorem insertIdx_findIdx (row : Candidate) (l : List Candidate) :
    l.insertIdx (l.findIdx (goesBefore row)) row =
      l.orderedInsert (fun x y => goesBefore x y) row := by
  induction l with
  | nil => rfl
  | cons x l ih =>
      rw [List.findIdx_cons, List.orderedInsert_cons]
      cases hx : goesBefore row x with
      | true => simp
      | false => simp [ih]

/-- The first loop stops at the first row with no higher amount, and the second one goes on to
the place of the row. -/
theorem findIdx_goesBefore (applicant : Address) (amount : ℤ) {l : List Candidate}
    (hl : l.Pairwise fun a b => goesBefore a b = true) {row : Candidate}
    (hrow : l[l.findIdx fun row => decide (row.amount ≤ amount)]? = some row) :
    l.findIdx (goesBefore ⟨applicant, amount⟩) =
      if amount = row.amount then
        l.findIdx (fun row => decide (row.amount ≤ amount)) +
          (l.drop (l.findIdx fun row => decide (row.amount ≤ amount))).findIdx fun row =>
            !decide (row.address < applicant) || decide (row.amount < amount)
      else l.findIdx fun row => decide (row.amount ≤ amount) := by
  induction l with
  | nil => cases hrow
  | cons x l ih =>
      obtain ⟨hx, hl⟩ := List.pairwise_cons.mp hl
      by_cases hle : x.amount ≤ amount
      · have hzero : (x :: l).findIdx (fun row => decide (row.amount ≤ amount)) = 0 := by
          simp [List.findIdx_cons, hle]
        rw [hzero] at hrow ⊢
        obtain rfl := Option.some.inj hrow
        split
        · rename_i heq
          rw [List.drop_zero, Nat.zero_add]
          refine findIdx_congr fun r hr => ?_
          have hamount : r.amount ≤ amount := by
            rcases List.mem_cons.mp hr with rfl | hr
            · exact hle
            · exact ((goesBefore_iff.mp (hx r hr)).amount_le).trans hle
          rcases hamount.lt_or_eq with hlt | hsame
          · simp [goesBefore, hlt]
          · simp [goesBefore, hsame]
        · rename_i hne
          have hlt : x.amount < amount := lt_of_le_of_ne hle fun h => hne h.symm
          simp [List.findIdx_cons, goesBefore, hlt]
      · have hbefore : goesBefore ⟨applicant, amount⟩ x = false := by
          rw [← Bool.not_eq_true, goesBefore_iff]
          rintro (hlt | ⟨heq, -⟩)
          · exact hle hlt.le
          · exact hle heq.ge
        have hsucc : (x :: l).findIdx (fun row => decide (row.amount ≤ amount)) =
            l.findIdx (fun row => decide (row.amount ≤ amount)) + 1 := by
          simp [List.findIdx_cons, hle]
        rw [hsucc, List.getElem?_cons_succ] at hrow
        rw [hsucc, List.findIdx_cons, hbefore, cond_false, ih hl hrow, List.drop_succ_cons]
        split <;> omega

theorem insertCandidatesSorted_eq (applicant : Address) (amount : ℤ)
    (hl : l.Pairwise fun a b => goesBefore a b = true) :
    insertCandidatesSorted applicant amount l =
      if l.length ≥ validatorSetSize * 2 then none
      else some (l.orderedInsert (fun x y => goesBefore x y) ⟨applicant, amount⟩) := by
  unfold insertCandidatesSorted
  split
  · rfl
  · rw [← insertIdx_findIdx]
    dsimp only
    split
    · rename_i hnone
      -- every amount is higher, and so no row comes after the new one
      have hlength : l.findIdx (goesBefore ⟨applicant, amount⟩) = l.length := by
        refine List.findIdx_eq_length.mpr fun row hrow => ?_
        have hlow := List.findIdx_eq_length.mp (le_antisymm List.findIdx_le_length
          (List.getElem?_eq_none_iff.mp hnone)) row hrow
        rw [← Bool.not_eq_true, goesBefore_iff]
        intro hrank
        exact (of_decide_eq_false hlow) hrank.amount_le
      rw [hlength, List.insertIdx_length_self]
    · rename_i row hrow
      rw [findIdx_goesBefore applicant amount hl hrow]

/-! ## Places -/

theorem findI0_eq_none_iff : findI0 l address = none ↔ address ∉ l.map Candidate.address := by
  unfold findI0
  dsimp only
  rw [ite_eq_left_iff, List.mem_map]
  constructor
  · rintro hall ⟨row, hrow, rfl⟩
    by_cases hlength : l.findIdx (fun r => decide (r.address = row.address)) = l.length
    · exact of_decide_eq_false (List.findIdx_eq_length.mp hlength row hrow) rfl
    · cases hall hlength
  · intro hnot hlength
    refine absurd (List.findIdx_eq_length.mpr fun row hrow => decide_eq_false fun heq => ?_) hlength
    exact hnot ⟨row, hrow, heq⟩

/-- The row of an address and what is before and after it. -/
theorem of_findI0 {i : ℕ} (hfind : findI0 l address = some i) :
    ∃ a row b, l = a ++ row :: b ∧ a.length = i ∧ row.address = address := by
  unfold findI0 at hfind
  dsimp only at hfind
  split at hfind
  · cases hfind
  · rename_i hne
    obtain rfl := Option.some.inj hfind
    have hlt : l.findIdx (fun row => decide (row.address = address)) < l.length :=
      lt_of_le_of_ne List.findIdx_le_length hne
    have hfound : decide ((l[l.findIdx fun row => decide (row.address = address)]).address =
        address) = true :=
      List.findIdx_getElem (p := fun row : Candidate => decide (row.address = address))
    generalize l.findIdx (fun row => decide (row.address = address)) = i at hlt hfound ⊢
    refine ⟨l.take i, l[i], l.drop (i + 1), ?_, List.length_take_of_le hlt.le,
      of_decide_eq_true hfound⟩
    rw [← List.drop_eq_getElem_cons hlt, List.take_append_drop]

theorem findI0_append {a b : List Candidate} {row : Candidate}
    (hnodup : ((a ++ row :: b).map Candidate.address).Nodup) :
    findI0 (a ++ row :: b) row.address = some a.length := by
  have hbefore : a.findIdx (fun r => decide (r.address = row.address)) = a.length := by
    refine List.findIdx_eq_length.mpr fun r hr => decide_eq_false fun heq => ?_
    rw [List.map_append, List.map_cons, List.nodup_append] at hnodup
    exact hnodup.2.2 _ (List.mem_map_of_mem hr) _ List.mem_cons_self heq
  unfold findI0
  dsimp only
  rw [List.findIdx_append, hbefore, if_neg (lt_irrefl _), List.findIdx_cons, decide_eq_true rfl,
    cond_true, Nat.zero_add, if_neg (by simp)]

/-! ## The invariant -/

/-- The list is sorted and not too long, its addresses have no zero character, the validators
are its head, and no applicant is on it. -/
structure Listed (w : World) : Prop where
  sorted : Sorted w.storage.candidates
  plain : ∀ address ∈ w.storage.candidates.map Candidate.address, 0 ∉ address
  length_le : w.storage.candidates.length ≤ validatorSetSize * 2
  validators : w.validators = w.storage.candidates.take validatorSetSize
  apart : ∀ address applicant, w.storage.applicants.lookup address = some applicant →
    address ∉ w.storage.candidates.map Candidate.address

/-- Addresses without a zero character come back as they were. -/
theorem asValidators_eq (hplain : ∀ address ∈ l.map Candidate.address, 0 ∉ address) :
    asValidators l = l := by
  refine (List.map_congr_left fun row hrow => ?_).trans (List.map_id l)
  rw [toCString_of_not_mem (hplain _ (List.mem_map_of_mem hrow)), id_eq]

theorem asValidators_take (hplain : ∀ address ∈ l.map Candidate.address, 0 ∉ address) (n : ℕ) :
    asValidators (l.take n) = l.take n :=
  asValidators_eq fun address haddress =>
    hplain address (((List.take_sublist n l).map _).subset haddress)

/-- A row has been put into its place.  When that is not among the first, the validators are
those from before. -/
theorem listed_saveInserted (row : Candidate) (hm : Sorted m)
    (hplain : ∀ address ∈ (row :: m).map Candidate.address, 0 ∉ address)
    (hlength : m.length < validatorSetSize * 2) (hnew : row.address ∉ m.map Candidate.address)
    (hbehind : ∀ a b, m = a ++ b →
      m.orderedInsert (fun x y => goesBefore x y) row = a ++ row :: b →
        validatorSetSize ≤ a.length → w.validators = m.take validatorSetSize)
    (hapart : ∀ address applicant, w.storage.applicants.lookup address = some applicant →
      address ≠ row.address ∧ address ∉ m.map Candidate.address) :
    Listed (saveInserted row.address (m.orderedInsert (fun x y => goesBefore x y) row) w) := by
  have hsorted := hm.orderedInsert hnew
  have hperm := List.perm_orderedInsert (fun x y => goesBefore x y = true) row m
  obtain ⟨a, b, hsplit, hrest⟩ := exists_place (fun x y hxy => RankLT.asymm hxy) hsorted.above
    hm.above hperm
  have hplain' : ∀ address ∈ (m.orderedInsert (fun x y => goesBefore x y) row).map
      Candidate.address, 0 ∉ address :=
    fun address haddress => hplain address ((hperm.map _).mem_iff.mp haddress)
  have hlisted : ∀ w' : World, w'.storage.candidates =
        m.orderedInsert (fun x y => goesBefore x y) row →
      w'.storage.applicants = w.storage.applicants →
      w'.validators = (m.orderedInsert (fun x y => goesBefore x y) row).take validatorSetSize →
      Listed w' := by
    intro w' hcandidates happlicants hvalidators
    refine ⟨hcandidates ▸ hsorted, hcandidates ▸ hplain', ?_, hcandidates ▸ hvalidators, ?_⟩
    · rw [hcandidates, hperm.length_eq]
      exact hlength
    · intro address applicant hlookup
      rw [happlicants] at hlookup
      obtain ⟨hne, hnot⟩ := hapart address applicant hlookup
      rw [hcandidates, (hperm.map Candidate.address).mem_iff, List.map_cons, List.mem_cons]
      rintro (heq | hmem)
      · exact hne heq
      · exact hnot hmem
  have hplace : findI0 (m.orderedInsert (fun x y => goesBefore x y) row) row.address =
      some a.length := by
    rw [hsplit]
    exact findI0_append (hsplit ▸ hsorted.nodup)
  unfold saveInserted
  dsimp only
  rw [hplace, Option.getD_some]
  split
  · exact hlisted _ rfl rfl (asValidators_take hplain' _)
  · rename_i hnot
    refine hlisted _ rfl rfl ?_
    change w.validators = _
    rw [hbehind a b hrest hsplit (not_lt.mp hnot), hsplit, take_of_le (not_lt.mp hnot), ← hrest]

/-- The rule for calls that touch neither the list nor the validators. -/
theorem Listed.of_eq (hlisted : Listed w)
    (hcandidates : w₁.storage.candidates = w.storage.candidates)
    (hvalidators : w₁.validators = w.validators)
    (happlicants : ∀ address applicant, w₁.storage.applicants.lookup address = some applicant →
      address ∉ w.storage.candidates.map Candidate.address) : Listed w₁ where
  sorted := hcandidates ▸ hlisted.sorted
  plain := hcandidates ▸ hlisted.plain
  length_le := hcandidates ▸ hlisted.length_le
  validators := by
    rw [hcandidates, hvalidators]
    exact hlisted.validators
  apart address applicant hlookup := by
    rw [hcandidates]
    exact happlicants address applicant hlookup

theorem Listed.setApplicant (hlisted : Listed w) {applicant : Applicant}
    (hnot : address ∉ w.storage.candidates.map Candidate.address) :
    Listed (w.setApplicant address applicant) := by
  refine hlisted.of_eq rfl rfl fun address' applicant' hlookup => ?_
  by_cases heq : address' = address
  · rw [heq]
    exact hnot
  · refine hlisted.apart address' applicant' ?_
    rw [← hlookup]
    exact (AList.lookup_insert_ne heq).symm

theorem Listed.apart_erase (hlisted : Listed w) {applicant : Applicant} {other : Address}
    (hlookup : (w.storage.applicants.erase other).lookup address = some applicant) :
    address ≠ other ∧ address ∉ w.storage.candidates.map Candidate.address := by
  have hne : address ≠ other := by
    rintro rfl
    cases (AList.lookup_erase _ _).symm.trans hlookup
  refine ⟨hne, hlisted.apart address applicant ?_⟩
  rw [← hlookup]
  exact (AList.lookup_erase_ne hne).symm

theorem Listed.delApplicant (hlisted : Listed w) (address : Address) :
    Listed (w.delApplicant address) :=
  hlisted.of_eq rfl rfl fun _ _ hlookup => (hlisted.apart_erase hlookup).2

theorem Listed.setAbolition (hlisted : Listed w) (address : Address) (abolition : Abolition) :
    Listed (w.setAbolition address abolition) :=
  hlisted.of_eq rfl rfl hlisted.apart

theorem Listed.delAbolition (hlisted : Listed w) (address : Address) :
    Listed (w.delAbolition address) :=
  hlisted.of_eq rfl rfl hlisted.apart

/-- A payment to an account that does nothing. -/
theorem of_transferCoin {source : Source} {dest : Address} {amount : ℤ}
    (htransfer : transferCoin host some source dest amount w = some w₁) :
    w₁.storage = w.storage ∧ w₁.validators = w.validators := by
  unfold transferCoin at htransfer
  split at htransfer
  · obtain rfl := Option.some.inj htransfer
    exact ⟨rfl, rfl⟩
  · obtain ⟨-, htransfer⟩ := of_assert htransfer
    obtain ⟨w', hreceive, htransfer⟩ := of_bind htransfer
    obtain rfl := Option.some.inj hreceive
    obtain rfl := Option.some.inj htransfer
    exact ⟨rfl, rfl⟩

theorem Listed.transferCoin (hlisted : Listed w) {source : Source} {dest : Address} {amount : ℤ}
    (htransfer : transferCoin host some source dest amount w = some w₁) : Listed w₁ := by
  obtain ⟨hstorage, hvalidators⟩ := of_transferCoin htransfer
  refine hlisted.of_eq (by rw [hstorage]) hvalidators ?_
  rw [hstorage]
  exact hlisted.apart

/-! ## The methods -/

theorem eraseIdx_append_cons (a : List Candidate) (row : Candidate) (b : List Candidate) :
    (a ++ row :: b).eraseIdx a.length = a ++ b := by
  rw [List.eraseIdx_append_of_length_le le_rfl, Nat.sub_self, List.eraseIdx_cons_zero]

theorem getElem?_append_cons (a : List Candidate) (row : Candidate) (b : List Candidate) :
    (a ++ row :: b)[a.length]? = some row := by
  rw [List.getElem?_append_right le_rfl, Nat.sub_self, List.getElem?_cons_zero]

theorem sublist_append_cons (a : List Candidate) (row : Candidate) (b : List Candidate) :
    (a ++ b).Sublist (a ++ row :: b) :=
  (List.Sublist.refl a).append (List.sublist_cons_self row b)

/-- A row with a higher amount moves to the front. -/
theorem length_le_of_raise {a b a' b' : List Candidate} {row row' : Candidate}
    (hold : (a ++ row :: b).Pairwise fun x y => goesBefore x y = true)
    (hnew : (a' ++ row' :: b').Pairwise fun x y => goesBefore x y = true)
    (hsame : a ++ b = a' ++ b') (hraise : row.amount < row'.amount) : a'.length ≤ a.length := by
  by_contra hlt
  obtain ⟨c, rfl, hb⟩ | ⟨c, rfl, hb'⟩ := List.append_eq_append_iff.mp hsame
  · cases c with
    | nil => simp at hlt
    | cons r c =>
        have hrow : goesBefore row r = true := by
          rw [hb] at hold
          exact (List.pairwise_cons.mp (List.pairwise_append.mp hold).2.1).1 r
            List.mem_cons_self
        have hrow' : goesBefore r row' = true :=
          (List.pairwise_append.mp hnew).2.2 r
            (List.mem_append_right a List.mem_cons_self) row' List.mem_cons_self
        have hle := (goesBefore_iff.mp hrow).amount_le
        have hle' := (goesBefore_iff.mp hrow').amount_le
        omega
  · simp at hlt

/-- A row is taken out and put in again with a higher amount.  When it stays behind the first
rows, so it was before. -/
theorem listed_raise {a b : List Candidate} {row : Candidate} {amount : ℤ} (hlisted : Listed w)
    (hsplit : w.storage.candidates = a ++ row :: b) (hraise : row.amount < amount)
    {newCandidates : List Candidate}
    (hinsert : insertCandidatesSorted row.address amount (a ++ b) = some newCandidates) :
    Listed (saveInserted row.address newCandidates w) := by
  have hsorted := hlisted.sorted
  have hlength := hlisted.length_le
  have hvalidators := hlisted.validators
  rw [hsplit] at hsorted hlength hvalidators
  have hrest := hsorted.sublist (sublist_append_cons a row b)
  have hshort : (a ++ b).length < validatorSetSize * 2 := by
    simp only [List.length_append, List.length_cons] at hlength ⊢
    omega
  rw [insertCandidatesSorted_eq _ _ hrest.pairwise, if_neg (not_le.mpr hshort)] at hinsert
  obtain rfl := Option.some.inj hinsert
  have hnew : row.address ∉ (a ++ b).map Candidate.address := by
    have hnodup := (List.perm_middle.map Candidate.address).nodup_iff.mp hsorted.nodup
    exact (List.nodup_cons.mp hnodup).1
  have hplain : ∀ address ∈ ((⟨row.address, amount⟩ : Candidate) :: (a ++ b)).map
      Candidate.address, 0 ∉ address := by
    intro address haddress
    refine hlisted.plain address ?_
    rwa [hsplit, (List.perm_middle.map Candidate.address).mem_iff]
  refine listed_saveInserted ⟨row.address, amount⟩ hrest hplain hshort hnew ?_ ?_
  · intro a' b' hsame hplace hbehind
    have hinserted : Sorted (a' ++ ⟨row.address, amount⟩ :: b') := by
      rw [← hplace]
      exact hrest.orderedInsert hnew
    have hle := length_le_of_raise hsorted.pairwise hinserted.pairwise hsame hraise
    rw [hvalidators]
    exact take_of_le (hbehind.trans hle)
  · intro address applicant hlookup
    have hnot := hlisted.apart address applicant hlookup
    rw [hsplit, (List.perm_middle.map Candidate.address).mem_iff, List.map_cons,
      List.mem_cons, not_or] at hnot
    exact hnot

theorem listed_applyAsValidatorCandidate (hlisted : Listed w)
    (happly : applyAsValidatorCandidate msg w = some w₁) : Listed w₁ := by
  unfold applyAsValidatorCandidate at happly
  dsimp only at happly
  split at happly
  · rename_i position hposition
    obtain ⟨a, row, b, hsplit, rfl, hsender⟩ := of_findI0 hposition
    obtain ⟨hcoins, happly⟩ := of_assert happly
    rw [hsplit, getElem?_append_cons, eraseIdx_append_cons, ← hsender] at happly
    obtain ⟨row', hrow, happly⟩ := of_bind happly
    obtain rfl := Option.some.inj hrow
    obtain ⟨amount, hamount, happly⟩ := of_bind happly
    obtain rfl := Dpos.of_int64Add hamount
    obtain ⟨newCandidates, hinsert, happly⟩ := of_bind happly
    obtain rfl := Option.some.inj happly
    have hpositive : 0 < msg.coinAmount := lt_of_lt_of_le (by decide) hcoins
    exact listed_raise hlisted hsplit (by omega) hinsert
  · rename_i hnone
    have hnot := findI0_eq_none_iff.mp hnone
    split at happly
    · obtain ⟨-, happly⟩ := of_assert happly
      obtain ⟨pledge, -, happly⟩ := of_bind happly
      obtain rfl := Option.some.inj happly
      exact hlisted.setApplicant hnot
    · obtain ⟨-, happly⟩ := of_assert happly
      obtain rfl := Option.some.inj happly
      exact hlisted.setApplicant hnot

/-- The vote makes a candidate of the applicant whose record it finds. -/
structure Admits (host : Host) (msg : Msg) (applicant : Address) (data : Applicant)
    (w : World) : Prop where
  valid : host.addressCheck applicant
  voter : findI0 w.validators msg.sender ≠ none
  stored : w.storage.applicants.lookup (toCString applicant) = some data
  inTime : msg.timestamp ≤ data.expiredTime
  room : w.storage.candidates.length < validatorSetSize * 2
  fresh : msg.sender ∉ data.ballot
  enough : passCount w.validators.length ≤ (data.ballot ++ [msg.sender]).length

/-- A call that makes a candidate of an applicant gives an address without a zero character. -/
def Named (host : Host) (w : World) (msg : Msg) (method : Method) : Prop :=
  ∀ applicant data, method = .voteForApplicant applicant → Admits host msg applicant data w →
    0 ∉ applicant

theorem listed_voteForApplicant {applicant : Address} (hlisted : Listed w)
    (hnamed : ∀ data, Admits host msg applicant data w → 0 ∉ applicant)
    (hvote : voteForApplicant host some msg applicant w = some w₁) : Listed w₁ := by
  unfold voteForApplicant at hvote
  obtain ⟨hvalid, hvote⟩ := of_assert hvote
  obtain ⟨hvoter, hvote⟩ := of_assert hvote
  split at hvote
  · obtain rfl := Option.some.inj hvote
    exact hlisted
  · rename_i data hdata
    split at hvote
    · -- the time is over, and the pledge goes back
      obtain ⟨w', htransfer, hvote⟩ := of_bind hvote
      obtain rfl := Option.some.inj hvote
      exact (hlisted.transferCoin htransfer).delApplicant _
    · rename_i hintime
      split at hvote
      · obtain rfl := Option.some.inj hvote
        exact hlisted
      · rename_i hfull
        obtain ⟨hfresh, hvote⟩ := of_assert hvote
        have hnot := hlisted.apart _ data hdata
        dsimp only at hvote
        split at hvote
        · obtain rfl := Option.some.inj hvote
          exact hlisted.setApplicant hnot
        · rename_i hshort
          obtain ⟨newCandidates, hinsert, hvote⟩ := of_bind hvote
          obtain rfl := Option.some.inj hvote
          rw [insertCandidatesSorted_eq _ _ hlisted.sorted.pairwise, if_neg hfull] at hinsert
          obtain rfl := Option.some.inj hinsert
          have hplain : 0 ∉ applicant := hnamed data ⟨hvalid, hvoter, hdata, not_lt.mp hintime,
            not_le.mp hfull, hfresh, not_lt.mp hshort⟩
          rw [toCString_of_not_mem hplain] at hnot ⊢
          exact listed_saveInserted ⟨applicant, data.pledge⟩ hlisted.sorted
            (List.forall_mem_cons.mpr ⟨hplain, hlisted.plain⟩) (not_le.mp hfull) hnot
            (fun _ _ _ _ _ => hlisted.validators) fun _ _ hlookup => hlisted.apart_erase hlookup

/-- A row is taken out.  When it was behind the first rows, these stay. -/
theorem listed_remove {a b : List Candidate} {row : Candidate} (hlisted : Listed w)
    (hsplit : w.storage.candidates = a ++ row :: b) :
    Listed (if a.length < validatorSetSize
      then setValidatorsFromCandidate (a ++ b) (w.setCandidates (a ++ b))
      else w.setCandidates (a ++ b)) := by
  have hsub : (a ++ b).Sublist w.storage.candidates := hsplit ▸ sublist_append_cons a row b
  have hplain : ∀ address ∈ (a ++ b).map Candidate.address, 0 ∉ address :=
    fun address haddress => hlisted.plain address ((hsub.map _).subset haddress)
  have hrest : ∀ w' : World, w'.storage.candidates = a ++ b →
      w'.storage.applicants = w.storage.applicants →
      w'.validators = (a ++ b).take validatorSetSize → Listed w' := by
    intro w' hcandidates happlicants hvalidators
    refine ⟨hcandidates ▸ hlisted.sorted.sublist hsub, hcandidates ▸ hplain, ?_,
      hcandidates ▸ hvalidators, ?_⟩
    · rw [hcandidates]
      exact hsub.length_le.trans hlisted.length_le
    · intro address applicant hlookup hmem
      rw [happlicants] at hlookup
      rw [hcandidates] at hmem
      exact hlisted.apart address applicant hlookup ((hsub.map _).subset hmem)
  split
  · exact hrest _ rfl rfl (asValidators_take hplain _)
  · rename_i hbehind
    refine hrest _ rfl rfl ?_
    change w.validators = _
    rw [hlisted.validators, hsplit]
    exact take_of_le (not_lt.mp hbehind)

theorem listed_takebackAllPledgeCoin (hlisted : Listed w)
    (htakeback : takebackAllPledgeCoin host some msg w = some w₁) : Listed w₁ := by
  unfold takebackAllPledgeCoin at htakeback
  split at htakeback
  · obtain ⟨w', htransfer, htakeback⟩ := of_bind htakeback
    obtain rfl := Option.some.inj htakeback
    exact (hlisted.transferCoin htransfer).delApplicant msg.sender
  · dsimp only at htakeback
    split at htakeback
    · obtain rfl := Option.some.inj htakeback
      exact hlisted
    · rename_i position hposition
      obtain ⟨a, row, b, hsplit, rfl, -⟩ := of_findI0 hposition
      obtain ⟨-, htakeback⟩ := of_assert htakeback
      obtain ⟨row', -, htakeback⟩ := of_bind htakeback
      obtain ⟨w', htransfer, htakeback⟩ := of_bind htakeback
      rw [hsplit, eraseIdx_append_cons] at htakeback
      have hkept : w'.storage.candidates = a ++ row :: b := by
        rw [(of_transferCoin htransfer).1, hsplit]
      have hremove := listed_remove (hlisted.transferCoin htransfer) hkept
      split at htakeback <;> rename_i hplace <;> obtain rfl := Option.some.inj htakeback
      · rwa [if_pos hplace] at hremove
      · rwa [if_neg hplace] at hremove

theorem listed_abolishValidator {malicious : Address} (hlisted : Listed w)
    (habolish : abolishValidator host msg malicious w = some w₁) : Listed w₁ := by
  unfold abolishValidator at habolish
  obtain ⟨-, habolish⟩ := of_assert habolish
  obtain ⟨-, habolish⟩ := of_assert habolish
  obtain ⟨-, habolish⟩ := of_assert habolish
  split at habolish
  · split at habolish
    · obtain rfl := Option.some.inj habolish
      exact hlisted.setAbolition _ _
    · obtain rfl := Option.some.inj habolish
      exact hlisted
  · obtain rfl := Option.some.inj habolish
    exact hlisted.setAbolition _ _

theorem listed_quitAbolishValidator {malicious : Address} (hlisted : Listed w)
    (hquit : quitAbolishValidator host msg malicious w = some w₁) : Listed w₁ := by
  unfold quitAbolishValidator at hquit
  obtain ⟨-, hquit⟩ := of_assert hquit
  obtain ⟨proposal, -, hquit⟩ := of_bind hquit
  obtain ⟨-, hquit⟩ := of_assert hquit
  obtain rfl := Option.some.inj hquit
  exact hlisted.delAbolition _

/-! ## The forfeit -/

/-- The rows, each with what it has been given. -/
def credit (f : ℕ → ℤ) (l : List Candidate) : List Candidate :=
  l.mapIdx fun i row => { row with amount := row.amount + f i }

/-- The sum of the amounts. -/
def amounts (l : List Candidate) : ℤ :=
  (l.map Candidate.amount).sum

@[simp] theorem length_credit (f : ℕ → ℤ) (l : List Candidate) :
    (credit f l).length = l.length :=
  List.length_mapIdx

@[simp] theorem map_address_credit (f : ℕ → ℤ) (l : List Candidate) :
    (credit f l).map Candidate.address = l.map Candidate.address := by
  refine List.ext_getElem (by simp) fun i hi hi' => ?_
  simp [credit]

theorem credit_credit (f g : ℕ → ℤ) (l : List Candidate) :
    credit g (credit f l) = credit (fun i => f i + g i) l := by
  simp only [credit, List.mapIdx_mapIdx, Function.comp_def, add_assoc]

theorem amounts_credit (f : ℕ → ℤ) (l : List Candidate) :
    amounts (credit f l) = amounts l + ∑ i ∈ Finset.range l.length, f i := by
  induction l generalizing f with
  | nil => simp [amounts, credit]
  | cons row l ih =>
      have hrest := ih fun i => f (i + 1)
      simp only [amounts, credit, List.mapIdx_cons, List.map_cons, List.sum_cons,
        List.length_cons, Finset.sum_range_succ'] at hrest ⊢
      rw [hrest]
      ring

/-- Who is further in front is given no less. -/
theorem Sorted.credit {f : ℕ → ℤ} (hl : Sorted l) (hf : Antitone f) : Sorted (credit f l) where
  pairwise := by
    rw [List.pairwise_iff_getElem]
    intro i j hi hj hij
    rw [length_credit] at hi hj
    have hrank := goesBefore_iff.mp (List.pairwise_iff_getElem.mp hl.pairwise i j hi hj hij)
    have hle := hf hij.le
    simp only [ValidatorsVote.credit, List.getElem_mapIdx, goesBefore_iff]
    rcases hrank with hlt | ⟨heq, hname⟩
    · exact .inl (add_lt_add_of_lt_of_le hlt hle)
    · rcases hle.lt_or_eq with hlt | hsame
      · exact .inl (add_lt_add_of_le_of_lt heq.ge hlt)
      · exact .inr ⟨by rw [heq, hsame], hname⟩
  nodup := by
    rw [map_address_credit]
    exact hl.nodup

theorem of_addAmount {amount : ℤ} {i : ℕ} (hadd : addAmount amount l i = some m) :
    i < l.length ∧ m = credit (fun j => if j = i then amount else 0) l := by
  unfold addAmount at hadd
  obtain ⟨row, hrow, hadd⟩ := of_bind hadd
  obtain ⟨sum, hsum, hadd⟩ := of_bind hadd
  obtain rfl := Dpos.of_int64Add hsum
  obtain rfl := Option.some.inj hadd
  obtain ⟨hi, rfl⟩ := List.getElem?_eq_some_iff.mp hrow
  refine ⟨hi, List.ext_getElem (by simp) fun j hj hj' => ?_⟩
  simp only [credit, List.getElem_set, List.getElem_mapIdx]
  by_cases hji : j = i
  · subst hji
    simp
  · rw [if_neg (Ne.symm hji), if_neg hji, add_zero]

/-- The loop gives the average to the first rows. -/
theorem of_foldlM_addAmount {average : ℤ} {n : ℕ}
    (hfold : (List.range n).foldlM (addAmount average) l = some m) :
    n ≤ l.length ∧ m = credit (fun i => if i < n then average else 0) l := by
  induction n generalizing m with
  | zero =>
      obtain rfl := Option.some.inj hfold
      refine ⟨Nat.zero_le _, List.ext_getElem (by simp) fun i hi hi' => ?_⟩
      simp [credit]
  | succ n ih =>
      rw [List.range_succ, List.foldlM_append] at hfold
      obtain ⟨m', hfirst, hlast⟩ := of_bind hfold
      obtain ⟨-, rfl⟩ := ih hfirst
      rw [List.foldlM_cons] at hlast
      obtain ⟨m'', hadd, hlast⟩ := of_bind hlast
      obtain rfl := Option.some.inj hlast
      obtain ⟨hn, rfl⟩ := of_addAmount hadd
      rw [length_credit] at hn
      refine ⟨hn, ?_⟩
      rw [credit_credit]
      congr 1
      funext i
      rcases lt_trichotomy i n with h | rfl | h
      · simp [h, h.ne, h.trans n.lt_succ_self]
      · simp
      · simp [h.not_gt, h.ne', Nat.not_lt.mpr h]

/-- What the row at a place is given. -/
def share (forfeit : ℤ) (n i : ℕ) : ℤ :=
  (if i = 0 then forfeit % n else 0) + if i < n then forfeit / n else 0

theorem antitone_share {forfeit : ℤ} {n : ℕ} (hforfeit : 0 ≤ forfeit) (hn : 0 < n) :
    Antitone (share forfeit n) := by
  have hmod : 0 ≤ forfeit % n := Int.emod_nonneg _ (by omega)
  have hdiv : 0 ≤ forfeit / n := Int.ediv_nonneg hforfeit (by omega)
  intro i j hij
  unfold share
  split_ifs <;> omega

theorem share_nonneg {forfeit : ℤ} {n : ℕ} (hforfeit : 0 ≤ forfeit) (hn : 0 < n) (i : ℕ) :
    0 ≤ share forfeit n i := by
  have hmod : 0 ≤ forfeit % n := Int.emod_nonneg _ (by omega)
  have hdiv : 0 ≤ forfeit / n := Int.ediv_nonneg hforfeit (by omega)
  unfold share
  split_ifs <;> omega

/-- No share is lost. -/
theorem sum_share (forfeit : ℤ) {n k : ℕ} (hn : 0 < n) (hnk : n ≤ k) :
    ∑ i ∈ Finset.range k, share forfeit n i = forfeit := by
  have hfirst : ∑ i ∈ Finset.range k, (if i = 0 then forfeit % n else 0) = forfeit % n := by
    rw [Finset.sum_ite_eq', if_pos (Finset.mem_range.mpr (hn.trans_le hnk))]
  have hrest : ∑ i ∈ Finset.range k, (if i < n then forfeit / n else 0) = n * (forfeit / n) := by
    rw [← Finset.sum_filter, show (Finset.range k).filter (· < n) = Finset.range n by
      ext i; simp only [Finset.mem_filter, Finset.mem_range]; omega]
    simp
  unfold share
  rw [Finset.sum_add_distrib, hfirst, hrest]
  exact Int.emod_add_mul_ediv forfeit n

theorem of_shareForfeit {forfeit : ℤ} {n : ℕ} (hshare : shareForfeit forfeit n l = some m) :
    0 ≤ forfeit ∧ 0 < n ∧ n ≤ l.length ∧ m = credit (share forfeit n) l := by
  unfold shareForfeit at hshare
  obtain ⟨award, haward, hshare⟩ := of_bind hshare
  obtain ⟨hn, hforfeit, rfl⟩ := Dpos.of_int64Mod haward
  obtain ⟨average, haverage, hshare⟩ := of_bind hshare
  obtain ⟨-, -, rfl⟩ := Dpos.of_int64Div haverage
  obtain ⟨l', hfirst, hfold⟩ : ∃ l', l' = credit (fun i => if i = 0 then forfeit % n else 0) l ∧
      (List.range n).foldlM (addAmount (forfeit / n)) l' = some m := by
    dsimp only at hshare
    split at hshare
    · rename_i hzero
      obtain ⟨l', hl', hfold⟩ := of_bind hshare
      obtain rfl := Option.some.inj hl'
      refine ⟨l, List.ext_getElem (by simp) fun i hi hi' => ?_, hfold⟩
      simp [credit, hzero]
    · obtain ⟨l', hl', hfold⟩ := of_bind hshare
      exact ⟨l', (of_addAmount hl').2, hfold⟩
  obtain ⟨hle, rfl⟩ := of_foldlM_addAmount hfold
  subst hfirst
  rw [length_credit] at hle
  refine ⟨hforfeit, by omega, hle, ?_⟩
  rw [credit_credit]
  rfl

/-- A vote leaves the list as it is, or takes out the row of the validator and shares out a
tenth of its amount. -/
theorem voteAbolishValidator_cases {malicious : Address} (hlisted : Listed w)
    (hvote : voteAbolishValidator host some msg malicious w = some w₁) :
    Listed w₁ ∧ w₁.storage.candidates = w.storage.candidates ∨
      ∃ a row b, w.storage.candidates = a ++ row :: b ∧ row.address = malicious ∧
        (∃ n, 0 ≤ row.amount / 10 ∧ 0 < n ∧ n ≤ (a ++ b).length ∧
          w₁.storage.candidates = credit (share (row.amount / 10) n) (a ++ b)) ∧
        w₁.validators = asValidators (w₁.storage.candidates.take validatorSetSize) ∧
        w₁.storage.applicants = w.storage.applicants := by
  unfold voteAbolishValidator at hvote
  obtain ⟨-, hvote⟩ := of_assert hvote
  dsimp only at hvote
  obtain ⟨-, hvote⟩ := of_assert hvote
  obtain ⟨-, hvote⟩ := of_assert hvote
  obtain ⟨-, hvote⟩ := of_assert hvote
  split at hvote
  · obtain rfl := Option.some.inj hvote
    exact .inl ⟨hlisted, rfl⟩
  · split at hvote
    · obtain rfl := Option.some.inj hvote
      exact .inl ⟨hlisted.delAbolition _, rfl⟩
    · obtain ⟨-, hvote⟩ := of_assert hvote
      split at hvote
      · obtain rfl := Option.some.inj hvote
        exact .inl ⟨hlisted.setAbolition _ _, rfl⟩
      · -- the vote has passed
        obtain ⟨position, hposition, hvote⟩ := of_bind hvote
        obtain ⟨a, row, b, hsplit, rfl, hrow⟩ := of_findI0 hposition
        rw [hsplit, getElem?_append_cons, eraseIdx_append_cons] at hvote
        obtain ⟨row', hrow', hvote⟩ := of_bind hvote
        obtain rfl := Option.some.inj hrow'
        obtain ⟨forfeit, hforfeit, hvote⟩ := of_bind hvote
        obtain ⟨-, -, rfl⟩ := Dpos.of_int64Div hforfeit
        obtain ⟨leftCoin, -, hvote⟩ := of_bind hvote
        obtain ⟨w', htransfer, hvote⟩ := of_bind hvote
        obtain ⟨newCandidates, hshare, hvote⟩ := of_bind hvote
        obtain rfl := Option.some.inj hvote
        obtain ⟨hnonneg, hn, hle, rfl⟩ := of_shareForfeit hshare
        refine .inr ⟨a, row, b, hsplit, hrow, ⟨_, hnonneg, hn, hle, rfl⟩, rfl, ?_⟩
        change w'.storage.applicants = _
        rw [(of_transferCoin htransfer).1]

theorem listed_voteAbolishValidator {malicious : Address} (hlisted : Listed w)
    (hvote : voteAbolishValidator host some msg malicious w = some w₁) : Listed w₁ := by
  obtain ⟨hkept, -⟩ | ⟨a, row, b, hsplit, -, ⟨n, hnonneg, hn, -, hcredit⟩, hvalidators,
    happlicants⟩ := voteAbolishValidator_cases hlisted hvote
  · exact hkept
  · have hsub : (a ++ b).Sublist w.storage.candidates := hsplit ▸ sublist_append_cons a row b
    have hplain : ∀ address ∈ w₁.storage.candidates.map Candidate.address, 0 ∉ address := by
      rw [hcredit, map_address_credit]
      exact fun address haddress => hlisted.plain address ((hsub.map _).subset haddress)
    refine ⟨?_, hplain, ?_, hvalidators.trans (asValidators_take hplain _), ?_⟩
    · rw [hcredit]
      exact (hlisted.sorted.sublist hsub).credit (antitone_share hnonneg hn)
    · rw [hcredit, length_credit]
      exact hsub.length_le.trans hlisted.length_le
    · intro address applicant hlookup hmem
      rw [happlicants] at hlookup
      rw [hcredit, map_address_credit] at hmem
      exact hlisted.apart address applicant hlookup ((hsub.map _).subset hmem)

/-- The forfeit stays with the candidates that are left. -/
theorem amounts_voteAbolishValidator {malicious : Address} {row : Candidate}
    (hlisted : Listed w) (hvote : voteAbolishValidator host some msg malicious w = some w₁)
    (hrow : row ∈ w.storage.candidates) (haddress : row.address = malicious)
    (hgone : malicious ∉ w₁.storage.candidates.map Candidate.address) :
    amounts w₁.storage.candidates =
      amounts w.storage.candidates - row.amount + row.amount / 10 := by
  obtain ⟨-, hkept⟩ | ⟨a, row', b, hsplit, haddress', ⟨n, -, hn, hle, hcredit⟩, -, -⟩ :=
    voteAbolishValidator_cases hlisted hvote
  · rw [hkept, ← haddress] at hgone
    exact absurd (List.mem_map_of_mem hrow) hgone
  · have hsame : row' = row := by
      refine List.inj_on_of_nodup_map hlisted.sorted.nodup ?_ hrow (haddress'.trans haddress.symm)
      rw [hsplit]
      exact List.mem_append_right a List.mem_cons_self
    rw [hcredit, amounts_credit, sum_share _ hn hle, hsplit, hsame]
    simp only [amounts, List.map_append, List.map_cons, List.sum_append, List.sum_cons]
    ring

/-! ## Runs -/

theorem Listed.call {method : Method} (hlisted : Listed w) (hnamed : Named host w msg method)
    (hcall : call host some msg method w = some w₁) : Listed w₁ := by
  have harrive : Listed (w.arrive msg.coinAmount) := hlisted.of_eq rfl rfl hlisted.apart
  unfold ValidatorsVote.call main at hcall
  cases method with
  | pledgeCoin => exact listed_applyAsValidatorCandidate harrive hcall
  | voteForApplicant address =>
      exact listed_voteForApplicant harrive (fun data hadmits => hnamed address data rfl
        ⟨hadmits.valid, hadmits.voter, hadmits.stored, hadmits.inTime, hadmits.room,
          hadmits.fresh, hadmits.enough⟩) hcall
  | takebackCoin => exact listed_takebackAllPledgeCoin harrive hcall
  | abolishValidator address => exact listed_abolishValidator harrive hcall
  | quitAbolish address => exact listed_quitAbolishValidator harrive hcall
  | voteForAbolish address => exact listed_voteAbolishValidator harrive hcall
  | unknown => cases hcall

theorem listed_init {validators : List Candidate} (balance : ℤ)
    (hdistinct : (validators.map Candidate.address).Nodup)
    (hplain : ∀ address ∈ validators.map Candidate.address, 0 ∉ address)
    (hsize : validators.length ≤ validatorSetSize) : Listed (init validators balance) where
  sorted := sorted_insertionSort hdistinct
  plain := fun address haddress =>
    hplain address (((List.perm_insertionSort _ validators).map _).mem_iff.mp haddress)
  length_le := by
    change (validators.insertionSort _).length ≤ _
    rw [List.length_insertionSort]
    omega
  validators := by
    have hcut : asValidators (init validators balance).storage.candidates =
        (init validators balance).storage.candidates := asValidators_eq fun address haddress =>
      hplain address (((List.perm_insertionSort _ validators).map _).mem_iff.mp haddress)
    refine hcut.trans (List.take_of_length_le ?_).symm
    change (validators.insertionSort _).length ≤ _
    rw [List.length_insertionSort]
    exact hsize
  apart := by
    intro address applicant hlookup
    cases hlookup

/-- Every call of a history that makes a candidate gives an address without a zero character. -/
def NamedAll (host : Host) : World → List (Msg × Method) → Prop
  | _, [] => True
  | w, entry :: calls => Named host w entry.1 entry.2 ∧
      NamedAll host ((call host some entry.1 entry.2 w).getD w) calls

theorem Listed.states {calls : List (Msg × Method)} (hlisted : Listed w)
    (hnamed : NamedAll host w calls) (hw : w₁ ∈ states host w calls) : Listed w₁ := by
  refine Runs.scanl_invariant_of (NamedAll host) (fun {w entry calls} hlisted hnamed => ?_)
    hlisted hnamed w₁ hw
  refine ⟨?_, hnamed.2⟩
  cases hcall : ValidatorsVote.call host some entry.1 entry.2 w with
  | none => exact hlisted
  | some w' => exact hlisted.call hnamed.1 hcall

/-- A validator is among the first candidates, and without it there are as many rows as there
are other validators. -/
theorem Listed.found (hlisted : Listed w) (hfind : findI0 w.validators address ≠ none) :
    ∃ position row, findI0 w.storage.candidates address = some position ∧
      w.storage.candidates[position]? = some row ∧ row.address = address ∧
      w.validators.length - 1 ≤ (w.storage.candidates.eraseIdx position).length := by
  have hmem : address ∈ w.storage.candidates.map Candidate.address := by
    by_contra hnot
    refine hfind (findI0_eq_none_iff.mpr fun hmem => hnot ?_)
    rw [hlisted.validators] at hmem
    exact (((List.take_sublist _ _).map _).subset hmem)
  cases hposition : findI0 w.storage.candidates address with
  | none => exact absurd hmem (findI0_eq_none_iff.mp hposition)
  | some position =>
      obtain ⟨a, row, b, hsplit, rfl, hrow⟩ := of_findI0 hposition
      refine ⟨a.length, row, rfl, ?_, hrow, ?_⟩
      · rw [hsplit]
        exact getElem?_append_cons a row b
      · rw [hlisted.validators, hsplit, eraseIdx_append_cons]
        simp only [List.length_take, List.length_append, List.length_cons]
        omega

/-- The candidates are strictly sorted by amount and then by address, without a repeated address
and no more than two hundred, and the validators are the first hundred of them.  So a validator
that is abolished is found, with as many rows besides it as there are shares of its forfeit, and
no share is lost.  The validators that `init` is given have no zero character in their
addresses, as `getValidators` has cut these. -/
theorem elected_head (host : Host) (validators : List Candidate) (balance : ℤ)
    (hdistinct : (validators.map Candidate.address).Nodup)
    (hplain : ∀ address ∈ validators.map Candidate.address, 0 ∉ address)
    (hsize : 1 ≤ validators.length ∧ validators.length ≤ 100) (calls : List (Msg × Method))
    (hnamed : NamedAll host (init validators balance) calls) :
    ∀ w ∈ states host (init validators balance) calls,
      w.storage.candidates.Pairwise Candidate.Above ∧
      (w.storage.candidates.map Candidate.address).Nodup ∧
      w.storage.candidates.length ≤ 200 ∧
      w.validators = w.storage.candidates.take 100 ∧
      (∀ malicious, findI0 w.validators malicious ≠ none →
        ∃ position row, findI0 w.storage.candidates malicious = some position ∧
          w.storage.candidates[position]? = some row ∧ row.address = malicious ∧
          w.validators.length - 1 ≤ (w.storage.candidates.eraseIdx position).length) ∧
      ∀ msg malicious w', call host some msg (.voteForAbolish malicious) w = some w' →
        ∀ row ∈ w.storage.candidates, row.address = malicious →
          malicious ∉ w'.storage.candidates.map Candidate.address →
          amounts w'.storage.candidates =
            amounts w.storage.candidates - row.amount + row.amount / 10 := by
  intro w hw
  have hlisted : Listed w := (listed_init balance hdistinct hplain hsize.2).states hnamed hw
  refine ⟨hlisted.sorted.above, hlisted.sorted.nodup, hlisted.length_le, hlisted.validators,
    fun malicious hfind => hlisted.found hfind, ?_⟩
  intro msg malicious w' hcall row hrow haddress hgone
  have harrive : Listed (w.arrive msg.coinAmount) := hlisted.of_eq rfl rfl hlisted.apart
  have hamounts := amounts_voteAbolishValidator harrive hcall hrow haddress hgone
  exact hamounts

/-- Every address is well formed, and an account may be emptied. -/
def sampleHost : Host where
  addressCheck _ := true
  baseReserve := 0

/-- Three validators. -/
def sampleValidators : List Candidate :=
  [⟨[3], 34⟩, ⟨[1], 50⟩, ⟨[2], 50⟩]

/-- `[1]` proposes to abolish `[3]`, and `[2]` agrees. -/
def abolishCalls : List (Msg × Method) :=
  [(plainMsg [1] 0, .abolishValidator [3]),
    (plainMsg [2] 1, .voteForAbolish [3])]

theorem elected_head_abolished :
    ∃ w ∈ states sampleHost (init sampleValidators 134) abolishCalls,
      w.storage.candidates = [⟨[1], 52⟩, ⟨[2], 51⟩] ∧
      w.storage.candidates.Pairwise Candidate.Above ∧
      w.validators = w.storage.candidates.take 100 := by
  obtain ⟨w, hw, hcandidates⟩ :
      ∃ w ∈ states sampleHost (init sampleValidators 134) abolishCalls,
        w.storage.candidates = [⟨[1], 52⟩, ⟨[2], 51⟩] := by
    decide +kernel
  have helected := elected_head sampleHost sampleValidators 134 (by decide) (by decide)
    (by decide) abolishCalls ⟨nofun, nofun, trivial⟩ w hw
  exact ⟨w, hw, hcandidates, helected.1, helected.2.2.2.1⟩

/-- `[9]` pledges, `[1]` votes for it and `[2]` for `[9, 0]`; then the others abolish it. -/
def cutCalls : List (Msg × Method) :=
  [(⟨[9], minPledgeAmount, 0, minPledgeAmount_nonneg, by decide⟩, .pledgeCoin),
    (plainMsg [1] 1, .voteForApplicant [9]),
    (plainMsg [2] 2, .voteForApplicant [9, 0]),
    (plainMsg [1] 3, .abolishValidator [9]),
    (plainMsg [2] 4, .voteForAbolish [9])]

/-- `[9]` is a validator then and `[9, 0]` a candidate, so that the last vote against `[9]`
throws. -/
theorem elected_unlisted :
    ∃ w ∈ states sampleHost (init sampleValidators 134) cutCalls,
      w.validators ≠ w.storage.candidates.take 100 ∧
      findI0 w.validators [9] = some 0 ∧ findI0 w.storage.candidates [9] = none ∧
      call sampleHost some (plainMsg [3] 5) (.voteForAbolish [9]) w = none := by
  decide +kernel

end CegChain.ValidatorsVote
