import CegChain.Contract.CandidateList
import CegChain.Lib.Totals

/-!
# Pledges are paid back

What the contract owes is the sum of the candidates' amounts and of the applicants' pledges.
A method that pays has read its record before, and takes it away or writes it afterwards.  When
the account that is paid is a contract, its own calls fall in between, and the record may by then
be smaller than what has been paid for it (`paid_back_twice`).  Where no record gets smaller
while it is paid, what is owed grows by no more than what comes in less what goes out
(`owed_covered`).
-/

namespace CegChain.ValidatorsVote

open Layers Totals
open Dpos (assert int64Add int64Sub Msg plainMsg of_bind of_assert)

variable {host : Host} {receive : Receive} {msg : Msg} {w w' w₁ : World} {l m : List Candidate}
  {source : Source} {coins coins' : ℤ}

/-! ## What is owed -/

namespace Storage

/-- The pledges of the applicants. -/
def pledges (s : Storage) : ℤ :=
  total (fun _ applicant => applicant.pledge) s.applicants

/-- The sum of the candidates' amounts and of the applicants' pledges. -/
def owed (s : Storage) : ℤ :=
  amounts s.candidates + s.pledges

/-- No stored amount is negative. -/
structure Nonneg (s : Storage) : Prop where
  candidates : ∀ row ∈ s.candidates, 0 ≤ row.amount
  applicants : ∀ address applicant, s.applicants.lookup address = some applicant →
    0 ≤ applicant.pledge

/-- What is owed for the record that a payment is made from. -/
def recorded (s : Storage) : Source → ℤ
  | .applicant address => weight (fun _ applicant => applicant.pledge) s.applicants address
  | .candidates => amounts s.candidates

end Storage

/-- The record was not made smaller by the calls that the payment has led to. -/
def Payment.Keeps (payment : Payment) : Prop :=
  payment.before.recorded payment.source ≤ payment.after.recorded payment.source

instance : DecidablePred Payment.Keeps := fun payment =>
  inferInstanceAs (Decidable
    (payment.before.recorded payment.source ≤ payment.after.recorded payment.source))

namespace World

/-- What has come in and is neither paid nor owed. -/
def spare (w : World) : ℤ :=
  w.received - w.paid - w.storage.owed

end World

/-- The amounts stay nonnegative, and where every payment on the way keeps its record, no more
than `coins` of what is spare is used. -/
structure Covered (coins : ℤ) (w w' : World) : Prop where
  nonneg : w.storage.Nonneg → w'.storage.Nonneg
  payments : ∃ made, w'.payments = made ++ w.payments ∧
    ((∀ payment ∈ made, payment.Keeps) → w.spare - coins ≤ w'.spare)

theorem Covered.trans (hfirst : Covered coins w w') (hsecond : Covered coins' w' w₁) :
    Covered (coins + coins') w w₁ where
  nonneg hw := hsecond.nonneg (hfirst.nonneg hw)
  payments := by
    obtain ⟨made, hmade, hspare⟩ := hfirst.payments
    obtain ⟨made', hmade', hspare'⟩ := hsecond.payments
    refine ⟨made' ++ made, by rw [hmade', hmade, List.append_assoc], fun hkeeps => ?_⟩
    have hle := hspare fun payment hmem => hkeeps payment (List.mem_append_right made' hmem)
    have hle' := hspare' fun payment hmem => hkeeps payment (List.mem_append_left made hmem)
    omega

/-- The rule for what does not pay. -/
theorem Covered.of_le (hpayments : w'.payments = w.payments)
    (hnonneg : w.storage.Nonneg → w'.storage.Nonneg) (hspare : w.spare - coins ≤ w'.spare) :
    Covered coins w w' :=
  ⟨hnonneg, [], hpayments, fun _ => hspare⟩

/-- The rule for what touches no amount. -/
theorem Covered.of_eq (hpayments : w'.payments = w.payments)
    (hcandidates : w'.storage.candidates = w.storage.candidates)
    (happlicants : w'.storage.applicants = w.storage.applicants)
    (hreceived : w'.received = w.received) (hpaid : w'.paid = w.paid) : Covered 0 w w' := by
  refine .of_le hpayments ?_ ?_
  · rintro ⟨hrows, hpledges⟩
    exact ⟨hcandidates ▸ hrows, happlicants ▸ hpledges⟩
  · simp only [World.spare, Storage.owed, Storage.pledges, hreceived, hpaid, hcandidates,
      happlicants]
    omega

theorem Covered.refl (w : World) : Covered 0 w w :=
  .of_eq rfl rfl rfl rfl rfl

theorem Covered.arrive (w : World) (coins : ℤ) : Covered (-coins) w (w.arrive coins) := by
  refine .of_le rfl (fun hw => ⟨hw.candidates, hw.applicants⟩) ?_
  simp only [World.spare, World.arrive]
  omega

/-! ## Payments -/

/-- What happens until a payment is through. -/
structure PaidFrom (source : Source) (coins : ℤ) (w w' : World) : Prop where
  nonneg : w.storage.Nonneg → w'.storage.Nonneg
  payments : ∃ made, w'.payments = made ++ w.payments ∧
    ((∀ payment ∈ made, payment.Keeps) →
      w.spare - coins ≤ w'.spare ∧ w.storage.recorded source ≤ w'.storage.recorded source)

theorem of_transferCoin_covered (hreceive : ∀ w w', receive w = some w' → Covered 0 w w')
    {dest : Address} (htransfer : transferCoin host receive source dest coins w = some w') :
    PaidFrom source coins w w' := by
  unfold transferCoin at htransfer
  split at htransfer
  · rename_i hzero
    obtain rfl := Option.some.inj htransfer
    exact ⟨id, [], rfl, fun _ => ⟨by omega, le_rfl⟩⟩
  · obtain ⟨-, htransfer⟩ := of_assert htransfer
    obtain ⟨w'', hreceive', htransfer⟩ := of_bind htransfer
    obtain rfl := Option.some.inj htransfer
    obtain ⟨hnonneg, made, hmade, hspare⟩ := hreceive _ _ hreceive'
    refine ⟨hnonneg, ⟨toCString dest, source, w.storage, w''.storage⟩ :: made, ?_,
      fun hkeeps => ?_⟩
    · rw [hmade]
      rfl
    · obtain ⟨hkeep, hkeeps⟩ := List.forall_mem_cons.mp hkeeps
      have hle := hspare hkeeps
      refine ⟨?_, hkeep⟩
      simp only [World.spare] at hle ⊢
      omega

/-- The record is taken away after the payment. -/
theorem PaidFrom.covered (hpaid : PaidFrom source coins w w')
    (hpayments : w₁.payments = w'.payments)
    (hnonneg : w.storage.Nonneg → w'.storage.Nonneg → w₁.storage.Nonneg)
    (hspare : w.storage.recorded source ≤ w'.storage.recorded source →
      w'.spare + coins ≤ w₁.spare) : Covered 0 w w₁ where
  nonneg hw := hnonneg hw (hpaid.nonneg hw)
  payments := by
    obtain ⟨made, hmade, hkept⟩ := hpaid.payments
    refine ⟨made, hpayments.trans hmade, fun hkeeps => ?_⟩
    obtain ⟨hle, hrecord⟩ := hkept hkeeps
    have hrest := hspare hrecord
    omega

/-! ## Updates -/

theorem amounts_append_cons (a : List Candidate) (row : Candidate) (b : List Candidate) :
    amounts (a ++ row :: b) = amounts (a ++ b) + row.amount := by
  simp only [amounts, List.map_append, List.map_cons, List.sum_append, List.sum_cons]
  ring

/-- Whatever the order of the rows is, the new one is added to them. -/
theorem perm_insertCandidatesSorted {applicant : Address} {amount : ℤ}
    (hinsert : insertCandidatesSorted applicant amount l = some m) :
    m.Perm (⟨applicant, amount⟩ :: l) := by
  unfold insertCandidatesSorted at hinsert
  split at hinsert
  · cases hinsert
  · dsimp only at hinsert
    split at hinsert
    · obtain rfl := Option.some.inj hinsert
      exact List.perm_append_singleton _ l
    · obtain rfl := Option.some.inj hinsert
      refine List.perm_insertIdx _ l ?_
      have hfirst : l.findIdx (fun row => decide (row.amount ≤ amount)) ≤ l.length :=
        List.findIdx_le_length
      generalize l.findIdx (fun row => decide (row.amount ≤ amount)) = i at hfirst ⊢
      split
      · have hrest : ((l.drop i).findIdx fun row =>
            !decide (row.address < applicant) || decide (row.amount < amount)) ≤
              (l.drop i).length :=
          List.findIdx_le_length
        rw [List.length_drop] at hrest
        omega
      · exact hfirst

theorem amounts_insertCandidatesSorted {applicant : Address} {amount : ℤ}
    (hinsert : insertCandidatesSorted applicant amount l = some m) :
    amounts m = amounts l + amount := by
  rw [amounts, ((perm_insertCandidatesSorted hinsert).map Candidate.amount).sum_eq, List.map_cons,
    List.sum_cons, add_comm]
  rfl

theorem nonneg_insertCandidatesSorted {applicant : Address} {amount : ℤ}
    (hinsert : insertCandidatesSorted applicant amount l = some m) (hamount : 0 ≤ amount)
    (hl : ∀ row ∈ l, 0 ≤ row.amount) : ∀ row ∈ m, 0 ≤ row.amount := by
  intro row hrow
  rcases List.mem_cons.mp ((perm_insertCandidatesSorted hinsert).mem_iff.mp hrow) with rfl | hrow
  · exact hamount
  · exact hl row hrow

/-- The list is stored and nothing else changes but the validators. -/
theorem saveInserted_eq (address : Address) (l : List Candidate) (w : World) :
    (saveInserted address l w).storage = { w.storage with candidates := l } ∧
      (saveInserted address l w).received = w.received ∧
      (saveInserted address l w).paid = w.paid ∧
      (saveInserted address l w).payments = w.payments := by
  unfold saveInserted
  dsimp only
  split
  · exact ⟨rfl, rfl, rfl, rfl⟩
  · exact ⟨rfl, rfl, rfl, rfl⟩

theorem spare_saveInserted (address : Address) (l : List Candidate) (w : World) :
    (saveInserted address l w).spare = w.spare + amounts w.storage.candidates - amounts l := by
  obtain ⟨hstorage, hreceived, hpaid, -⟩ := saveInserted_eq address l w
  simp only [World.spare, Storage.owed, Storage.pledges, hstorage, hreceived, hpaid]
  omega

theorem Covered.saveInserted {address : Address}
    (hnonneg : w.storage.Nonneg → ∀ row ∈ l, 0 ≤ row.amount)
    (hamounts : amounts l ≤ amounts w.storage.candidates + coins) :
    Covered coins w (saveInserted address l w) := by
  obtain ⟨hstorage, -, -, hpayments⟩ := saveInserted_eq address l w
  refine .of_le hpayments (fun hw => ?_) ?_
  · rw [hstorage]
    exact ⟨hnonneg hw, hw.applicants⟩
  · rw [spare_saveInserted]
    omega

theorem Covered.setApplicant {address : Address} {applicant : Applicant}
    (hnonneg : w.storage.Nonneg → 0 ≤ applicant.pledge)
    (hpledge : applicant.pledge ≤ w.storage.recorded (.applicant address) + coins) :
    Covered coins w (w.setApplicant address applicant) := by
  refine .of_le rfl (fun hw => ⟨hw.candidates, ?_⟩) ?_
  · exact forall_lookup_insert hw.applicants (hnonneg hw)
  · simp only [World.spare, Storage.owed, Storage.pledges, World.setApplicant, total_insert,
      Storage.recorded] at hpledge ⊢
    omega

theorem recorded_applicant {address : Address} {data : Applicant}
    (hdata : w.storage.applicants.lookup address = some data) :
    w.storage.recorded (.applicant address) = data.pledge := by
  rw [Storage.recorded, weight_of_lookup hdata]

theorem spare_delApplicant (address : Address) (w : World) :
    (w.delApplicant address).spare = w.spare + w.storage.recorded (.applicant address) := by
  simp only [World.spare, Storage.owed, Storage.pledges, World.delApplicant, total_erase,
    Storage.recorded]
  omega

theorem Storage.Nonneg.delApplicant (hw : w.storage.Nonneg) (address : Address) :
    (w.delApplicant address).storage.Nonneg :=
  ⟨hw.candidates, forall_lookup_erase address hw.applicants⟩

/-! ## The methods -/

theorem covered_applyAsValidatorCandidate
    (happly : applyAsValidatorCandidate msg w = some w₁) : Covered msg.coinAmount w w₁ := by
  unfold applyAsValidatorCandidate at happly
  dsimp only at happly
  split at happly
  · rename_i position hposition
    obtain ⟨a, row, b, hsplit, rfl, -⟩ := of_findI0 hposition
    obtain ⟨-, happly⟩ := of_assert happly
    rw [hsplit, getElem?_append_cons, eraseIdx_append_cons] at happly
    obtain ⟨row', hrow, happly⟩ := of_bind happly
    obtain rfl := Option.some.inj hrow
    obtain ⟨amount, hamount, happly⟩ := of_bind happly
    obtain rfl := Dpos.of_int64Add hamount
    obtain ⟨newCandidates, hinsert, happly⟩ := of_bind happly
    obtain rfl := Option.some.inj happly
    refine .saveInserted (fun hw => ?_) ?_
    · have hrows := hw.candidates
      rw [hsplit] at hrows
      refine nonneg_insertCandidatesSorted hinsert ?_ fun r hr =>
        hrows r ((sublist_append_cons a row b).subset hr)
      exact add_nonneg (hrows row (List.mem_append_right a List.mem_cons_self)) msg.nonneg
    · rw [amounts_insertCandidatesSorted hinsert, hsplit, amounts_append_cons]
      omega
  · split at happly
    · rename_i applicant happlicant
      obtain ⟨-, happly⟩ := of_assert happly
      obtain ⟨pledge, hpledge, happly⟩ := of_bind happly
      obtain rfl := Dpos.of_int64Add hpledge
      obtain rfl := Option.some.inj happly
      refine .setApplicant (fun hw => ?_) ?_
      · exact add_nonneg (hw.applicants _ applicant happlicant) msg.nonneg
      · simp only [Storage.recorded, weight_of_lookup happlicant]
        exact le_rfl
    · rename_i hnone
      obtain ⟨-, happly⟩ := of_assert happly
      obtain rfl := Option.some.inj happly
      refine .setApplicant (fun _ => msg.nonneg) ?_
      simp only [Storage.recorded, weight_of_none hnone]
      omega

/-- A pledge is paid back, and the applicant is deleted. -/
theorem covered_refund (hreceive : ∀ w w', receive w = some w' → Covered 0 w w')
    {address dest : Address} {data : Applicant}
    (hdata : w.storage.applicants.lookup address = some data)
    (htransfer : transferCoin host receive (.applicant address) dest data.pledge w = some w') :
    Covered 0 w (w'.delApplicant address) := by
  refine (of_transferCoin_covered hreceive htransfer).covered rfl
    (fun _ hw' => hw'.delApplicant address) fun hkept => ?_
  have hpledge := recorded_applicant hdata
  rw [spare_delApplicant]
  omega

theorem covered_voteForApplicant (hreceive : ∀ w w', receive w = some w' → Covered 0 w w')
    {applicant : Address} (hvote : voteForApplicant host receive msg applicant w = some w₁) :
    Covered 0 w w₁ := by
  unfold voteForApplicant at hvote
  obtain ⟨-, hvote⟩ := of_assert hvote
  obtain ⟨-, hvote⟩ := of_assert hvote
  split at hvote
  · obtain rfl := Option.some.inj hvote
    exact .refl w
  · rename_i data hdata
    have hpledge := recorded_applicant hdata
    split at hvote
    · obtain ⟨w', htransfer, hvote⟩ := of_bind hvote
      obtain rfl := Option.some.inj hvote
      exact covered_refund hreceive hdata htransfer
    · split at hvote
      · obtain rfl := Option.some.inj hvote
        exact .refl w
      · obtain ⟨-, hvote⟩ := of_assert hvote
        dsimp only at hvote
        split at hvote
        · obtain rfl := Option.some.inj hvote
          refine .setApplicant (fun hw => hw.applicants _ data hdata) ?_
          rw [hpledge, add_zero]
        · obtain ⟨newCandidates, hinsert, hvote⟩ := of_bind hvote
          obtain rfl := Option.some.inj hvote
          -- the pledge goes from the applicants to the candidates
          obtain ⟨hstorage, -, -, hpayments⟩ :=
            saveInserted_eq applicant newCandidates (w.delApplicant (toCString applicant))
          refine .of_le hpayments (fun hw => ?_) ?_
          · rw [hstorage]
            exact ⟨nonneg_insertCandidatesSorted hinsert (hw.applicants _ data hdata)
              hw.candidates, (hw.delApplicant _).applicants⟩
          · rw [spare_saveInserted, spare_delApplicant, hpledge,
              amounts_insertCandidatesSorted hinsert]
            change _ ≤ w.spare + data.pledge + amounts w.storage.candidates - _
            omega

/-- The candidates are stored without a row that has been paid, except for what is left of
it. -/
theorem PaidFrom.covered_setCandidates {a b : List Candidate} {row : Candidate}
    (hpaid : PaidFrom .candidates coins w w') (hsplit : w.storage.candidates = a ++ row :: b)
    (hpayments : w₁.payments = w'.payments) (hreceived : w₁.received = w'.received)
    (hpaid₁ : w₁.paid = w'.paid) (happlicants : w₁.storage.applicants = w'.storage.applicants)
    (hamounts : amounts w₁.storage.candidates = amounts (a ++ b) + row.amount - coins)
    (hnonneg : w.storage.Nonneg → ∀ row ∈ w₁.storage.candidates, 0 ≤ row.amount) :
    Covered 0 w w₁ := by
  refine hpaid.covered hpayments (fun hw hw' => ⟨hnonneg hw, happlicants ▸ hw'.applicants⟩)
    fun hkept => ?_
  have hbefore : w.storage.recorded .candidates = amounts (a ++ b) + row.amount := by
    rw [Storage.recorded, hsplit, amounts_append_cons]
  have hafter : w'.storage.recorded .candidates = amounts w'.storage.candidates := rfl
  simp only [World.spare, Storage.owed, Storage.pledges, hreceived, hpaid₁, happlicants]
  omega

theorem covered_takebackAllPledgeCoin (hreceive : ∀ w w', receive w = some w' → Covered 0 w w')
    (htakeback : takebackAllPledgeCoin host receive msg w = some w₁) : Covered 0 w w₁ := by
  unfold takebackAllPledgeCoin at htakeback
  split at htakeback
  · rename_i data hdata
    obtain ⟨w', htransfer, htakeback⟩ := of_bind htakeback
    obtain rfl := Option.some.inj htakeback
    exact covered_refund hreceive hdata htransfer
  · dsimp only at htakeback
    split at htakeback
    · obtain rfl := Option.some.inj htakeback
      exact .refl w
    · rename_i position hposition
      obtain ⟨a, row, b, hsplit, rfl, -⟩ := of_findI0 hposition
      obtain ⟨-, htakeback⟩ := of_assert htakeback
      rw [hsplit, getElem?_append_cons, eraseIdx_append_cons] at htakeback
      obtain ⟨row', hrow, htakeback⟩ := of_bind htakeback
      obtain rfl := Option.some.inj hrow
      obtain ⟨w', htransfer, htakeback⟩ := of_bind htakeback
      have hpaid := of_transferCoin_covered hreceive htransfer
      have hnonneg : w.storage.Nonneg → ∀ r ∈ a ++ b, 0 ≤ r.amount := by
        intro hw r hr
        exact hw.candidates r (hsplit ▸ (sublist_append_cons a row b).subset hr)
      have hamounts : amounts (a ++ b) = amounts (a ++ b) + row.amount - row.amount := by omega
      split at htakeback <;> obtain rfl := Option.some.inj htakeback
      · exact hpaid.covered_setCandidates hsplit rfl rfl rfl rfl hamounts hnonneg
      · exact hpaid.covered_setCandidates hsplit rfl rfl rfl rfl hamounts hnonneg

theorem covered_abolishValidator {malicious : Address}
    (habolish : abolishValidator host msg malicious w = some w₁) : Covered 0 w w₁ := by
  unfold abolishValidator at habolish
  obtain ⟨-, habolish⟩ := of_assert habolish
  obtain ⟨-, habolish⟩ := of_assert habolish
  obtain ⟨-, habolish⟩ := of_assert habolish
  split at habolish
  · split at habolish <;> obtain rfl := Option.some.inj habolish <;>
      exact .of_eq rfl rfl rfl rfl rfl
  · obtain rfl := Option.some.inj habolish
    exact .of_eq rfl rfl rfl rfl rfl

theorem covered_quitAbolishValidator {malicious : Address}
    (hquit : quitAbolishValidator host msg malicious w = some w₁) : Covered 0 w w₁ := by
  unfold quitAbolishValidator at hquit
  obtain ⟨-, hquit⟩ := of_assert hquit
  obtain ⟨proposal, -, hquit⟩ := of_bind hquit
  obtain ⟨-, hquit⟩ := of_assert hquit
  obtain rfl := Option.some.inj hquit
  exact .of_eq rfl rfl rfl rfl rfl

theorem nonneg_credit {f : ℕ → ℤ} (hf : ∀ i, 0 ≤ f i) (hl : ∀ row ∈ l, 0 ≤ row.amount) :
    ∀ row ∈ credit f l, 0 ≤ row.amount := by
  intro row hrow
  obtain ⟨i, hi, rfl⟩ := List.mem_mapIdx.mp hrow
  exact add_nonneg (hl _ (List.getElem_mem hi)) (hf i)

theorem covered_voteAbolishValidator (hreceive : ∀ w w', receive w = some w' → Covered 0 w w')
    {malicious : Address} (hvote : voteAbolishValidator host receive msg malicious w = some w₁) :
    Covered 0 w w₁ := by
  unfold voteAbolishValidator at hvote
  obtain ⟨-, hvote⟩ := of_assert hvote
  dsimp only at hvote
  obtain ⟨-, hvote⟩ := of_assert hvote
  obtain ⟨-, hvote⟩ := of_assert hvote
  obtain ⟨-, hvote⟩ := of_assert hvote
  split at hvote
  · obtain rfl := Option.some.inj hvote
    exact .refl w
  · split at hvote
    · obtain rfl := Option.some.inj hvote
      exact .of_eq rfl rfl rfl rfl rfl
    · obtain ⟨-, hvote⟩ := of_assert hvote
      split at hvote
      · obtain rfl := Option.some.inj hvote
        exact .of_eq rfl rfl rfl rfl rfl
      · obtain ⟨position, hposition, hvote⟩ := of_bind hvote
        obtain ⟨a, row, b, hsplit, rfl, -⟩ := of_findI0 hposition
        rw [hsplit, getElem?_append_cons, eraseIdx_append_cons] at hvote
        obtain ⟨row', hrow, hvote⟩ := of_bind hvote
        obtain rfl := Option.some.inj hrow
        obtain ⟨forfeit, hforfeit, hvote⟩ := of_bind hvote
        obtain ⟨leftCoin, hleft, hvote⟩ := of_bind hvote
        obtain rfl := Dpos.of_int64Sub hleft
        obtain ⟨w', htransfer, hvote⟩ := of_bind hvote
        obtain ⟨newCandidates, hshare, hvote⟩ := of_bind hvote
        obtain rfl := Option.some.inj hvote
        obtain ⟨hnonneg, hn, hle, rfl⟩ := of_shareForfeit hshare
        refine (of_transferCoin_covered hreceive htransfer).covered_setCandidates hsplit
          rfl rfl rfl rfl ?_ fun hw => ?_
        · change amounts (credit _ (a ++ b)) = _
          rw [amounts_credit, sum_share _ hn hle]
          omega
        · refine nonneg_credit (share_nonneg hnonneg hn) fun r hr => ?_
          exact hw.candidates r (hsplit ▸ (sublist_append_cons a row b).subset hr)

/-! ## Call trees -/

theorem covered_call (hreceive : ∀ w w', receive w = some w' → Covered 0 w w') {method : Method}
    (hcall : call host receive msg method w = some w₁) : Covered 0 w w₁ := by
  have harrive := Covered.arrive w msg.coinAmount
  -- the coins that come with a call are used by `pledgeCoin` alone
  have hunused : Covered 0 (w.arrive msg.coinAmount) w₁ → Covered 0 w w₁ := by
    intro hcovered
    obtain ⟨hnonneg, made, hmade, hspare⟩ := harrive.trans hcovered
    refine ⟨hnonneg, made, hmade, fun hkeeps => ?_⟩
    have hle := hspare hkeeps
    have hcoins := msg.nonneg
    omega
  unfold call main at hcall
  cases method with
  | pledgeCoin =>
      have hcovered := harrive.trans (covered_applyAsValidatorCandidate hcall)
      rwa [neg_add_cancel] at hcovered
  | voteForApplicant address => exact hunused (covered_voteForApplicant hreceive hcall)
  | takebackCoin => exact hunused (covered_takebackAllPledgeCoin hreceive hcall)
  | abolishValidator address => exact hunused (covered_abolishValidator hcall)
  | quitAbolish address => exact hunused (covered_quitAbolishValidator hcall)
  | voteForAbolish address => exact hunused (covered_voteAbolishValidator hreceive hcall)
  | unknown => cases hcall

theorem covered_react (reaction : Reaction) :
    ∀ w w', react host reaction w = some w' → Covered 0 w w' := by
  induction reaction with
  | done =>
      intro w w' hreact
      obtain rfl := Option.some.inj hreact
      exact .refl w
  | fail =>
      intro w w' hreact
      cases hreact
  | call msg method reaction next ih ihnext =>
      intro w w' hreact
      rw [react] at hreact
      have hnext := ihnext _ _ hreact
      cases hcall : call host (react host reaction) msg method w with
      | none =>
          rw [hcall] at hnext
          exact hnext
      | some w₁ =>
          rw [hcall] at hnext
          simpa using (covered_call ih hcall).trans hnext

/-- The contract after each call of a history; with a call stands what the account does that is
paid in it. -/
def histories (host : Host) (w : World) (calls : List (Msg × Method × Reaction)) : List World :=
  calls.scanl (fun w entry => (call host (react host entry.2.2) entry.1 entry.2.1 w).getD w) w

theorem nonneg_init {validators : List Candidate} (balance : ℤ)
    (hvalidators : ∀ row ∈ validators, 0 ≤ row.amount) :
    (init validators balance).storage.Nonneg where
  candidates row hrow := hvalidators row ((List.perm_insertionSort _ validators).mem_iff.mp hrow)
  applicants address applicant hlookup := by cases hlookup

theorem nonneg_histories {calls : List (Msg × Method × Reaction)} (hw : w.storage.Nonneg)
    (hmem : w' ∈ histories host w calls) : w'.storage.Nonneg := by
  refine Runs.scanl_invariant (p := fun w => w.storage.Nonneg) (fun {w entry} hw => ?_) hw w' hmem
  cases hcall : call host (react host entry.2.2) entry.1 entry.2.1 w with
  | none => exact hw
  | some w₁ => exact (covered_call (covered_react entry.2.2) hcall).nonneg hw

/-- **No pledge is paid back twice** in a call whose payments all keep the record that they are
made from, and no stored amount is ever negative. -/
theorem owed_covered (host : Host) (validators : List Candidate) (balance : ℤ)
    (hvalidators : ∀ row ∈ validators, 0 ≤ row.amount)
    (calls : List (Msg × Method × Reaction)) :
    ∀ w ∈ histories host (init validators balance) calls,
      w.storage.Nonneg ∧
      ∀ reaction msg method w', call host (react host reaction) msg method w = some w' →
        w'.storage.Nonneg ∧
        ∃ made, w'.payments = made ++ w.payments ∧
          ((∀ payment ∈ made, payment.Keeps) →
            w'.storage.owed - w.storage.owed ≤
              (w'.received - w.received) - (w'.paid - w.paid)) := by
  intro w hw
  have hnonneg := nonneg_histories (nonneg_init balance hvalidators) hw
  refine ⟨hnonneg, fun reaction msg method w' hcall => ?_⟩
  have hcovered := covered_call (covered_react reaction) hcall
  obtain ⟨made, hmade, hspare⟩ := hcovered.payments
  refine ⟨hcovered.nonneg hnonneg, made, hmade, fun hkeeps => ?_⟩
  have hle := hspare hkeeps
  simp only [World.spare] at hle
  omega

/-- `[7]` and `[8]` each pledge what an applicant has to. -/
def pledgeCalls : List (Msg × Method × Reaction) :=
  [[7], [8]].map fun sender =>
    ({ plainMsg sender 0 with coinAmount := minPledgeAmount, nonneg := minPledgeAmount_nonneg },
      .pledgeCoin, .done)

/-- The contract with two applicants. -/
def twoApplicants : World :=
  (histories sampleHost (init [⟨[1], 0⟩] 0) pledgeCalls).getLastD (init [] 0)

/-- `[7]` takes its pledge back. -/
def takeback : Msg :=
  plainMsg [7] 1

theorem mem_twoApplicants :
    twoApplicants ∈ histories sampleHost (init [⟨[1], 0⟩] 0) pledgeCalls := by
  refine List.mem_of_getLast? ?_
  rfl

theorem owed_covered_takeback :
    ∃ w', call sampleHost (react sampleHost .done) takeback .takebackCoin twoApplicants = some w' ∧
      w'.storage.owed - twoApplicants.storage.owed ≤
        (w'.received - twoApplicants.received) - (w'.paid - twoApplicants.paid) := by
  obtain ⟨-, hcovered⟩ := owed_covered sampleHost [⟨[1], 0⟩] 0 (by decide) pledgeCalls
    twoApplicants mem_twoApplicants
  have hkeeps : ∀ w' ∈ call sampleHost (react sampleHost .done) takeback .takebackCoin
      twoApplicants, ∀ payment ∈ w'.payments, payment.Keeps := by
    decide +kernel
  refine ⟨_, rfl, ?_⟩
  obtain ⟨-, made, hmade, hle⟩ := hcovered .done takeback .takebackCoin _ rfl
  refine hle fun payment hpayment => hkeeps _ rfl payment ?_
  rw [hmade]
  exact List.mem_append_left _ hpayment

/-- The time to vote for `[7]` is over, and `[1]` has it paid back. -/
def lateVote : Msg :=
  plainMsg [1] (effectiveVoteInterval + 1)

/-- `[7]` is a contract.  When it is paid, it takes its pledge back once more, and is paid from
the pledge of `[8]`. -/
theorem paid_back_twice :
    twoApplicants ∈ histories sampleHost (init [⟨[1], 0⟩] 0) pledgeCalls ∧
    ∃ w', call sampleHost (react sampleHost (.call takeback .takebackCoin .done .done)) lateVote
        (.voteForApplicant [7]) twoApplicants = some w' ∧
      ¬ w'.storage.owed - twoApplicants.storage.owed ≤
        (w'.received - twoApplicants.received) - (w'.paid - twoApplicants.paid) :=
  ⟨mem_twoApplicants, _, rfl, by decide +kernel⟩

end CegChain.ValidatorsVote
