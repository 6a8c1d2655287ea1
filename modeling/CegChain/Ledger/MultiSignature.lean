import CegChain.Ledger.Turns
import CegChain.Lib.KeyedList
import Mathlib.Algebra.Order.BigOperators.Group.List

/-!
# Multi-signature accounts

`SignerHashPriv` counts down from the threshold and stops when nothing is left.  Weights
are not negative, so it stops exactly when the weights that have signed reach the
threshold (`signerHashPriv_iff`), whatever the order of the signers.

The signers of an account are written one by one, by operations that have passed
`CheckValid`.  Whatever these are, no signer and no operation type is ever listed twice
(`Reachable.keyed`).  That an account does not sign for itself is another matter:
`CheckValid` compares the signers with the source of the operation as it is spelled there,
and the account is looked up by the bytes that this decodes to.
-/

namespace CegChain

open KeyedList

/-! ## Counting down -/

namespace TransactionFrm

/-- What an operation of the type needs. -/
def requiredWeight (account : AccountFrm) (type : ℤ) : ℤ :=
  if account.getTypeThreshold type > 0 then account.getTypeThreshold type
  else account.thresholds.txThreshold

/-- The weights of the listed signers among `signed`. -/
def listedWeight (signed : List Address) (signers : List Signer) : ℤ :=
  ((signers.filter (·.address ∈ signed)).map Signer.weight).sum

/-- The master weight, if the account has signed, and the weights of its signers that
have. -/
def signedWeight (lib : Library) (env : TransactionEnv) (account : AccountFrm) : ℤ :=
  (if account.address ∈ validSignature lib env then account.priv.masterWeight else 0) +
    listedWeight (validSignature lib env) account.priv.signers

theorem listedWeight_cons (signed : List Address) (signer : Signer) (signers : List Signer) :
    listedWeight signed (signer :: signers) =
      (if signer.address ∈ signed then signer.weight else 0) + listedWeight signed signers := by
  unfold listedWeight
  by_cases hsigned : signer.address ∈ signed
  · rw [List.filter_cons_of_pos (by simpa using hsigned), List.map_cons, List.sum_cons,
      if_pos hsigned]
  · rw [List.filter_cons_of_neg (by simpa using hsigned), if_neg hsigned, zero_add]

theorem listedWeight_nonneg (signed : List Address) {signers : List Signer}
    (hweights : ∀ signer ∈ signers, 0 ≤ signer.weight) : 0 ≤ listedWeight signed signers := by
  apply List.sum_nonneg
  intro weight hweight
  obtain ⟨signer, hsigner, rfl⟩ := List.mem_map.mp hweight
  exact hweights signer (List.mem_of_mem_filter hsigner)

/-- The early exits do not matter: the rest of the weights can only add to what has been
taken off. -/
theorem signersReach_iff (signed : List Address) {signers : List Signer}
    (hweights : ∀ signer ∈ signers, 0 ≤ signer.weight) {threshold : ℤ} (hpos : 0 < threshold) :
    signersReach signed threshold signers = true ↔ threshold ≤ listedWeight signed signers := by
  induction signers generalizing threshold with
  | nil =>
      have hnil : listedWeight signed [] = 0 := rfl
      rw [hnil]
      simp [signersReach, hpos]
  | cons signer signers ih =>
      have hrest : ∀ other ∈ signers, 0 ≤ other.weight :=
        fun other hother => hweights other (List.mem_cons_of_mem _ hother)
      have hnonneg := listedWeight_nonneg signed hrest
      rw [listedWeight_cons, signersReach]
      by_cases hsigned : signer.address ∈ signed
      · simp only [if_pos hsigned]
        split_ifs with hdone
        · exact ⟨fun _ => by omega, fun _ => rfl⟩
        · rw [ih hrest (not_le.mp hdone)]
          omega
      · simp only [if_neg hsigned, if_neg (not_le.mpr hpos), zero_add]
        exact ih hrest hpos

/-- `SignerHashPriv`, with its threshold under a name. -/
theorem signerHashPriv_eq (lib : Library) (env : TransactionEnv) (account : AccountFrm)
    (type : ℤ) :
    signerHashPriv lib env account type =
      if requiredWeight account type -
          (if account.address ∈ validSignature lib env then account.priv.masterWeight else 0) ≤ 0
      then true
      else signersReach (validSignature lib env)
        (requiredWeight account type -
          (if account.address ∈ validSignature lib env then account.priv.masterWeight else 0))
        account.priv.signers := by
  by_cases hself : account.address ∈ validSignature lib env
  · simp only [signerHashPriv, requiredWeight, if_pos hself]
  · simp only [signerHashPriv, requiredWeight, if_neg hself, sub_zero]

theorem signerHashPriv_iff (lib : Library) (env : TransactionEnv) {account : AccountFrm}
    (hweights : ∀ signer ∈ account.priv.signers, 0 ≤ signer.weight) (type : ℤ) :
    signerHashPriv lib env account type = true ↔
      requiredWeight account type ≤ signedWeight lib env account := by
  have hnonneg := listedWeight_nonneg (validSignature lib env) hweights
  rw [signerHashPriv_eq, signedWeight]
  split_ifs with hself hdone hdone
  · exact ⟨fun _ => by omega, fun _ => rfl⟩
  · rw [signersReach_iff _ hweights (not_le.mp hdone)]
    omega
  · exact ⟨fun _ => by omega, fun _ => rfl⟩
  · rw [signersReach_iff _ hweights (not_le.mp hdone)]
    omega

end TransactionFrm

/-! ## What an account lists -/

/-- No signer and no type is listed twice, and the weights and thresholds are numbers that
`SignerHashPriv` can count down in 64 bits: a positive `int64_t` less a weight. -/
structure AccountFrm.Keyed (account : AccountFrm) : Prop where
  signersOnce : (account.priv.signers.map Signer.address).Nodup
  typesOnce : (account.thresholds.typeThresholds.map OperationTypeThreshold.type).Nodup
  masterWeight : 0 ≤ account.priv.masterWeight ∧ account.priv.masterWeight ≤ uint32Max
  weights : ∀ signer ∈ account.priv.signers, 0 ≤ signer.weight ∧ signer.weight ≤ uint32Max
  txThreshold : 0 ≤ account.thresholds.txThreshold

namespace AccountFrm

variable {account : AccountFrm}

theorem signers_updateSigner (signer : Signer) (account : AccountFrm) :
    (account.updateSigner signer).priv.signers =
      upsert Signer.address signerLimit (decide (signer.weight > 0)) signer
        account.priv.signers := by
  simp only [updateSigner, upsert, decide_eq_true_eq, ge_iff_le]

theorem typeThresholds_updateTypeThreshold (typeThreshold : OperationTypeThreshold)
    (account : AccountFrm) :
    (account.updateTypeThreshold typeThreshold).thresholds.typeThresholds =
      upsert OperationTypeThreshold.type signerLimit (decide (typeThreshold.threshold > 0))
        typeThreshold account.thresholds.typeThresholds := by
  simp only [updateTypeThreshold, setThresholds, thresholds, Option.getD_some, upsert,
    decide_eq_true_eq, ge_iff_le]
  rfl

theorem Keyed.updateSigner (hkeyed : account.Keyed) {signer : Signer}
    (hweight : 0 ≤ signer.weight ∧ signer.weight ≤ uint32Max) :
    (account.updateSigner signer).Keyed where
  signersOnce := by
    rw [signers_updateSigner]
    exact nodup_upsert hkeyed.signersOnce
  typesOnce := hkeyed.typesOnce
  masterWeight := hkeyed.masterWeight
  weights := by
    intro other hother
    rw [signers_updateSigner] at hother
    rcases mem_upsert hother with hold | ⟨-, rfl⟩
    · exact hkeyed.weights other hold
    · exact hweight
  txThreshold := hkeyed.txThreshold

theorem Keyed.updateTypeThreshold (hkeyed : account.Keyed)
    (typeThreshold : OperationTypeThreshold) :
    (account.updateTypeThreshold typeThreshold).Keyed where
  signersOnce := hkeyed.signersOnce
  typesOnce := by
    rw [typeThresholds_updateTypeThreshold]
    exact nodup_upsert hkeyed.typesOnce
  masterWeight := hkeyed.masterWeight
  weights := hkeyed.weights
  txThreshold := hkeyed.txThreshold

theorem Keyed.setProtoMasterWeight (hkeyed : account.Keyed) {weight : ℤ}
    (hweight : 0 ≤ weight ∧ weight ≤ uint32Max) : (account.setProtoMasterWeight weight).Keyed :=
  { hkeyed with masterWeight := hweight }

theorem Keyed.setProtoTxThreshold (hkeyed : account.Keyed) {threshold : ℤ}
    (hthreshold : 0 ≤ threshold) : (account.setProtoTxThreshold threshold).Keyed :=
  { hkeyed with txThreshold := hthreshold }

/-- A change that is made only under a condition. -/
theorem Keyed.ite {p : Prop} [Decidable p] {after : AccountFrm} (hset : p → after.Keyed)
    (hkeyed : account.Keyed) : (if p then after else account).Keyed := by
  split_ifs with hp
  · exact hset hp
  · exact hkeyed

/-- The signers of an account, one after another. -/
theorem Keyed.updateSigners (hkeyed : account.Keyed) {signers : List Signer}
    (hweights : ∀ signer ∈ signers, 0 ≤ signer.weight ∧ signer.weight ≤ uint32Max) :
    (signers.foldl (fun account signer => account.updateSigner signer) account).Keyed :=
  List.foldlRecOn signers _ hkeyed fun _ hkeyed signer hsigner =>
    hkeyed.updateSigner (hweights signer hsigner)

theorem Keyed.updateTypeThresholds (hkeyed : account.Keyed)
    (typeThresholds : List OperationTypeThreshold) :
    (typeThresholds.foldl
      (fun account typeThreshold => account.updateTypeThreshold typeThreshold) account).Keyed :=
  List.foldlRecOn typeThresholds _ hkeyed fun _ hkeyed typeThreshold _ =>
    hkeyed.updateTypeThreshold typeThreshold

end AccountFrm

/-! ## What the checks let through -/

/-- What is asked of a signer wherever one is listed. -/
structure Signer.Fits (own : Address) (signer : Signer) : Prop where
  weight : 0 ≤ signer.weight ∧ signer.weight ≤ uint32Max
  other : signer.address ≠ own

theorem String64.safeStoi64_eq {str : Bytes} {n : ℤ} (hstr : safeStoi64 str = some n) :
    stoi64 str = n := by
  unfold safeStoi64 at hstr
  split_ifs at hstr
  exact Option.some.inj hstr

namespace OperationFrm

variable {lib : Library} {lcl : Closed}

theorem of_checkSigners {self : Address} {signers : List Signer} {seen : List Address}
    (hcheck : checkSigners lib self signers seen = .success) :
    (∀ signer ∈ signers, signer.Fits self ∧ signer.address ∉ seen) ∧
      (signers.map Signer.address).Nodup := by
  induction signers generalizing seen with
  | nil => exact ⟨fun _ hmem => absurd hmem List.not_mem_nil, List.nodup_nil⟩
  | cons signer signers ih =>
      unfold checkSigners at hcheck
      split_ifs at hcheck with hweight hself hvalid hseen
      obtain ⟨hall, honce⟩ := ih hcheck
      rw [not_or, not_lt, not_lt] at hweight
      constructor
      · intro other hother
        rcases List.mem_cons.mp hother with rfl | hother
        · exact ⟨⟨hweight, hself⟩, hseen⟩
        · exact ⟨(hall other hother).1, fun hmem => (hall other hother).2 (.tail _ hmem)⟩
      · rw [List.map_cons, List.nodup_cons]
        refine ⟨fun hmem => ?_, honce⟩
        obtain ⟨other, hother, heq⟩ := List.mem_map.mp hmem
        exact (hall other hother).2 (heq ▸ List.mem_cons_self)

theorem of_checkTypeThresholds {typeThresholds : List OperationTypeThreshold} {seen : List ℤ}
    (hcheck : checkTypeThresholds typeThresholds seen = .success) :
    (∀ typeThreshold ∈ typeThresholds, typeThreshold.type ∉ seen) ∧
      (typeThresholds.map OperationTypeThreshold.type).Nodup := by
  induction typeThresholds generalizing seen with
  | nil => exact ⟨fun _ hmem => absurd hmem List.not_mem_nil, List.nodup_nil⟩
  | cons typeThreshold rest ih =>
      unfold checkTypeThresholds at hcheck
      split_ifs at hcheck with htype hthreshold hseen
      obtain ⟨hall, honce⟩ := ih hcheck
      constructor
      · intro other hother
        rcases List.mem_cons.mp hother with rfl | hother
        · exact hseen
        · exact fun hmem => hall other hother (.tail _ hmem)
      · rw [List.map_cons, List.nodup_cons]
        refine ⟨fun hmem => ?_, honce⟩
        obtain ⟨other, hother, heq⟩ := List.mem_map.mp hmem
        exact hall other hother (heq ▸ List.mem_cons_self)

theorem of_checkSignerWeights {source : Address} {signers : List Signer}
    (hcheck : checkSignerWeights lib source signers = .success) :
    ∀ signer ∈ signers, signer.Fits source := by
  induction signers with
  | nil => exact fun _ hmem => absurd hmem List.not_mem_nil
  | cons signer signers ih =>
      unfold checkSignerWeights at hcheck
      split_ifs at hcheck with hweight hself hvalid
      rw [not_or, not_lt, not_lt] at hweight
      intro other hother
      rcases List.mem_cons.mp hother with rfl | hother
      · exact ⟨hweight, hself⟩
      · exact ih hcheck other hother

theorem of_checkMetadatas {result : ErrCode} {metadatas : List KeyPair}
    (hcheck : checkMetadatas result metadatas = .success) : result = .success := by
  unfold checkMetadatas at hcheck
  split_ifs at hcheck
  exact hcheck

theorem of_isPlainPriv {masterWeight : ℤ} {priv : AccountPrivilege} {threshold : AccountThreshold}
    (hplain : isPlainPriv masterWeight priv threshold = true) :
    priv.signers = [] ∧ threshold.typeThresholds = [] := by
  simp only [isPlainPriv, Bool.and_eq_true, List.isEmpty_iff] at hplain
  exact ⟨hplain.1.1.2, hplain.2⟩

/-- A new privilege, as the account it is given to has it. -/
structure NewPrivilege (own : Address) (priv : AccountPrivilege) : Prop where
  masterWeight : 0 ≤ priv.masterWeight ∧ priv.masterWeight ≤ uint32Max
  signers : ∀ signer ∈ priv.signers, signer.Fits own
  signersOnce : (priv.signers.map Signer.address).Nodup
  txThreshold : 0 ≤ (priv.thresholds.getD {}).txThreshold
  typesOnce : ((priv.thresholds.getD {}).typeThresholds.map OperationTypeThreshold.type).Nodup

theorem NewPrivilege.of_plain {own : Address} {masterWeight : ℤ} {priv : AccountPrivilege}
    {threshold : AccountThreshold}
    (hmaster : ¬(priv.masterWeight < 0 ∨ priv.masterWeight > uint32Max))
    (hthresholds : priv.thresholds = some threshold) (htx : ¬threshold.txThreshold < 0)
    (hplain : ¬isPlainPriv masterWeight priv threshold = false) : NewPrivilege own priv := by
  rw [Bool.not_eq_false] at hplain
  obtain ⟨hsigners, htypes⟩ := of_isPlainPriv hplain
  rw [not_or, not_lt, not_lt] at hmaster
  refine ⟨hmaster, ?_, ?_, ?_, ?_⟩
  · rw [hsigners]
    exact fun _ hmem => absurd hmem List.not_mem_nil
  · rw [hsigners]
    exact List.nodup_nil
  · rw [hthresholds]
    exact not_lt.mp htx
  · rw [hthresholds, Option.getD_some, htypes]
    exact List.nodup_nil

/-- From version 1001 on a new account has no signers. -/
theorem newPrivilege_of_gt1000 {message : OperationCreateAccount} {stackSize : ℕ}
    (hcheck : checkCreateAccountGt1000 lib lcl message stackSize = .success) (own : Address) :
    NewPrivilege own (message.priv.getD {}) := by
  unfold checkCreateAccountGt1000 at hcheck
  cases hpriv : message.priv with
  | none =>
      simp only [hpriv] at hcheck
      split_ifs at hcheck
  | some priv =>
      cases hthresholds : priv.thresholds with
      | none =>
          simp only [hpriv, hthresholds] at hcheck
          split_ifs at hcheck
      | some threshold =>
          simp only [hpriv, hthresholds] at hcheck
          split_ifs at hcheck with _ _ hmaster htx _ _ hplain hplain
          · exact .of_plain hmaster hthresholds htx hplain
          · exact .of_plain hmaster hthresholds htx hplain

/-- Before that it may have them, checked against the address it gets. -/
theorem newPrivilege_of_checkCreateAccount {message : OperationCreateAccount}
    {source : Address} {stackSize : ℕ}
    (hcheck : checkCreateAccount lib lcl message source stackSize = .success) :
    isAddressValid lib.calcHash message.destAddress = true ∧
      NewPrivilege message.destAddress (message.priv.getD {}) := by
  unfold checkCreateAccount at hcheck
  cases hpriv : message.priv with
  | none =>
      simp only [hpriv] at hcheck
      split_ifs at hcheck
  | some priv =>
      simp only [hpriv] at hcheck
      cases hsigners : checkSigners lib message.destAddress priv.signers [] with
      | success =>
          obtain ⟨hfits, honce⟩ := of_checkSigners hsigners
          cases hthresholds : priv.thresholds with
          | none =>
              simp only [hsigners, hthresholds] at hcheck
              split_ifs at hcheck
          | some threshold =>
              simp only [hsigners, hthresholds] at hcheck
              split_ifs at hcheck with hdest hreserved hmaster htx hcontract hsize hplain
              · exact ⟨Bool.not_eq_false _ ▸ hdest, .of_plain hmaster hthresholds htx hplain⟩
              · -- a refused type threshold leaves its code to the end
                obtain ⟨-, htypes⟩ := of_checkTypeThresholds (of_checkMetadatas hcheck)
                rw [not_or, not_lt, not_lt] at hmaster
                refine ⟨Bool.not_eq_false _ ▸ hdest, hmaster,
                  fun signer hsigner => (hfits signer hsigner).1, honce, ?_, ?_⟩
                · rw [Option.getD_some, hthresholds]
                  exact not_lt.mp htx
                · rw [Option.getD_some, hthresholds]
                  exact htypes
      | _ =>
          simp only [hsigners] at hcheck
          split_ifs at hcheck

variable {ope : Operation} {source : Address} {stackSize : ℕ}

theorem newPrivilege_of_checkValid {message : OperationCreateAccount}
    (hbody : ope.body = .createAccount message)
    (hvalid : checkValid lib lcl ope source stackSize = .success) (tran : Transaction)
    (index : ℕ) :
    NewPrivilege (createdAddress lib tran index message) (message.priv.getD {}) := by
  simp only [checkValid, hbody] at hvalid
  split_ifs at hvalid
  · exact newPrivilege_of_gt1000 hvalid _
  · obtain ⟨hdest, hpriv⟩ := newPrivilege_of_checkCreateAccount hvalid
    have hsome : message.destAddress ≠ [] := by
      intro hnil
      obtain ⟨tail, -, hdecode⟩ := decodeAddress_of_valid hdest
      rw [hnil] at hdecode
      cases hdecode
    rwa [createdAddress, if_neg hsome]

theorem of_checkSetSignerWeight {message : OperationSetSignerWeight}
    (hcheck : checkSetSignerWeight lib message source = .success) :
    message.masterWeight ≤ uint32Max ∧ ∀ signer ∈ message.signers, signer.Fits source := by
  unfold checkSetSignerWeight at hcheck
  split_ifs at hcheck with hmaster
  exact ⟨not_lt.mp fun hlt => hmaster (.inr hlt), of_checkSignerWeights hcheck⟩

theorem of_checkSetPrivilege {message : OperationSetPrivilege}
    (hcheck : checkSetPrivilege lib message source = .success) :
    (message.masterWeight ≠ [] → String64.stoi64 message.masterWeight ≤ uint32Max) ∧
      ∀ signer ∈ message.signers, signer.Fits source := by
  unfold checkSetPrivilege at hcheck
  cases hsigners : checkSigners lib source message.signers [] with
  | success =>
      simp only [hsigners] at hcheck
      split_ifs at hcheck with hmaster htx
      refine ⟨fun hset => ?_, fun signer hsigner => ((of_checkSigners hsigners).1 signer hsigner).1⟩
      cases hread : String64.safeStoi64 message.masterWeight with
      | none => exact absurd ⟨hset, by rw [hread]⟩ hmaster
      | some n =>
          simp only [hread, not_and, Bool.not_eq_false, Bool.and_eq_true, decide_eq_true_eq]
            at hmaster
          rw [String64.safeStoi64_eq hread]
          exact (hmaster hset).2
  | _ =>
      simp only [hsigners] at hcheck
      split_ifs at hcheck

theorem keyed_signerWeightChange {message : OperationSetSignerWeight} {account : AccountFrm}
    (hcheck : checkSetSignerWeight lib message source = .success) (hkeyed : account.Keyed) :
    (signerWeightChange message account).Keyed := by
  obtain ⟨hmaster, hsigners⟩ := of_checkSetSignerWeight hcheck
  apply AccountFrm.Keyed.updateSigners
  · exact .ite (fun hset => hkeyed.setProtoMasterWeight ⟨hset, hmaster⟩) hkeyed
  · exact fun signer hsigner => (hsigners signer hsigner).weight

theorem keyed_thresholdChange (message : OperationSetThreshold) {account : AccountFrm}
    (hkeyed : account.Keyed) : (thresholdChange message account).Keyed := by
  apply AccountFrm.Keyed.updateTypeThresholds
  exact .ite hkeyed.setProtoTxThreshold hkeyed

theorem keyed_privilegeChange {message : OperationSetPrivilege} {account : AccountFrm}
    (hcheck : checkSetPrivilege lib message source = .success) (hkeyed : account.Keyed) :
    (privilegeChange message account).Keyed := by
  obtain ⟨hmaster, hsigners⟩ := of_checkSetPrivilege hcheck
  have hfirst : (if message.masterWeight ≠ [] ∧ String64.stoi64 message.masterWeight ≥ 0 then
      account.setProtoMasterWeight (String64.stoi64 message.masterWeight) else account).Keyed :=
    .ite (fun hset => hkeyed.setProtoMasterWeight ⟨hset.2, hmaster hset.1⟩) hkeyed
  have hlisted := hfirst.updateSigners fun signer hsigner => (hsigners signer hsigner).weight
  apply AccountFrm.Keyed.updateTypeThresholds
  exact .ite (fun hset => hlisted.setProtoTxThreshold hset.2) hlisted

end OperationFrm

/-! ## Accounts that operations lead to -/

/-- What a body that is about the privilege of its source does to the source account. -/
def OperationBody.privilegeChange? : OperationBody → Option (AccountFrm → AccountFrm)
  | setSignerWeight message => some (OperationFrm.signerWeightChange message)
  | setThreshold message => some (OperationFrm.thresholdChange message)
  | setPrivilege message => some (OperationFrm.privilegeChange message)
  | _ => none

/-- The signers that a body lists. -/
def OperationBody.signers : OperationBody → List Signer
  | setSignerWeight message => message.signers
  | setPrivilege message => message.signers
  | _ => []

/-- The account that `CreateAccount` adds. -/
def OperationFrm.createdAccount (lib : Library) (tran : Transaction) (index : ℕ)
    (message : OperationCreateAccount) : Option AccountFrm :=
  withMetadatas message.metadatas {
    address := createdAddress lib tran index message
    priv := message.priv.getD {}
    contract := message.contract
    balance := message.initBalance }

/-- The accounts that operations lead to, each operation in any block and past `CheckValid`.
An account is reached under any string that decodes to the bytes its own address decodes
to.  `Allowed` says which operations there are, for their source and the account. -/
inductive Reachable (lib : Library) (Allowed : Address → OperationBody → AccountFrm → Prop) :
    AccountFrm → Prop where
  | createAccount {lcl : Closed} {ope : Operation} {source : Address} {stackSize : ℕ}
      {message : OperationCreateAccount} {account : AccountFrm}
      (hbody : ope.body = .createAccount message)
      (hvalid : OperationFrm.checkValid lib lcl ope source stackSize = .success)
      (tran : Transaction) (index : ℕ)
      (hcreated : OperationFrm.createdAccount lib tran index message = some account) :
      Reachable lib Allowed account
  | payCoin {lcl : Closed} {ope : Operation} {source : Address} {stackSize : ℕ}
      {message : OperationPayCoin} (hbody : ope.body = .payCoin message)
      (hvalid : OperationFrm.checkValid lib lcl ope source stackSize = .success) :
      Reachable lib Allowed (OperationFrm.paidAccount message.destAddress)
  | change {lcl : Closed} {ope : Operation} {source : Address} {stackSize : ℕ}
      {account : AccountFrm} {change : AccountFrm → AccountFrm}
      (hreach : Reachable lib Allowed account)
      (hsource : decodeAddress source = decodeAddress account.address)
      (hvalid : OperationFrm.checkValid lib lcl ope source stackSize = .success)
      (hchange : ope.body.privilegeChange? = some change)
      (hallowed : Allowed source ope.body account) : Reachable lib Allowed (change account)
  /-- Whatever else happens to the account leaves its address and its privilege. -/
  | other {account after : AccountFrm} (hreach : Reachable lib Allowed account)
      (haddress : after.address = account.address) (hpriv : after.priv = account.priv) :
      Reachable lib Allowed after

namespace OperationFrm

variable {lib : Library} {lcl : Closed} {source : Address} {account : AccountFrm}
  {c c' : LedgerContext} {level : ℕ}

/-- `Apply` of a body about the privilege is its change, written to the account that
`GetEntry` finds for the source. -/
theorem apply_of_privilegeChange {execute : Execution} {env : TransactionEnv} {ope : Operation}
    {change : AccountFrm → AccountFrm} (hchange : ope.body.privilegeChange? = some change)
    (hget : c.getEntry lcl level (env.transaction.operationSource ope) = (some account, c'))
    (index : ℕ) :
    apply lib lcl execute env index level ope c =
      (.success, c'.modifyEntry level (env.transaction.operationSource ope) change) := by
  unfold OperationBody.privilegeChange? at hchange
  unfold apply
  simp only [hget]
  cases hbody : ope.body with
  | setSignerWeight message =>
      rw [hbody] at hchange
      rw [← Option.some.inj hchange]
  | setThreshold message =>
      rw [hbody] at hchange
      rw [← Option.some.inj hchange]
  | setPrivilege message =>
      rw [hbody] at hchange
      rw [← Option.some.inj hchange]
  | _ =>
      rw [hbody] at hchange
      cases hchange

/-- Where `CreateAccount` of an account without code succeeds, it ends by adding it. -/
theorem createAccount_adds {execute : Execution} {tran : Transaction} {index : ℕ}
    {sourceAccount : AccountFrm} {message : OperationCreateAccount}
    (hplain : message.contract.payload = [])
    (hsuccess : (createAccount lib lcl execute tran index level source sourceAccount message c).1 =
      .success) :
    ∃ (created : AccountFrm) (before : LedgerContext),
      createdAccount lib tran index message = some created ∧
      (createAccount lib lcl execute tran index level source sourceAccount message c).2 =
        before.addEntry level (createdAddress lib tran index message) created := by
  unfold createAccount at hsuccess ⊢
  dsimp only at hsuccess ⊢
  split at hsuccess
  · cases hsuccess
  · split_ifs at hsuccess ⊢
    split at hsuccess
    · cases hsuccess
    · split_ifs at hsuccess ⊢
      split at hsuccess
      · cases hsuccess
      · cases hcreated : createdAccount lib tran index message with
        | none =>
            unfold createdAccount at hcreated
            simp only [hcreated] at hsuccess
            cases hsuccess
        | some created =>
            unfold createdAccount at hcreated
            simp only [hcreated]
            exact ⟨created, _, rfl, rfl⟩

end OperationFrm

/-! ## Every account that is reached -/

section

variable {lib : Library} {account : AccountFrm}

theorem OperationFrm.withMetadatas_priv {metadatas : List KeyPair} {before after : AccountFrm}
    (hwith : withMetadatas metadatas before = some after) :
    after.address = before.address ∧ after.priv = before.priv := by
  induction metadatas generalizing before with
  | nil =>
      obtain rfl := Option.some.inj hwith
      exact ⟨rfl, rfl⟩
  | cons kp metadatas ih =>
      unfold withMetadatas at hwith
      split_ifs at hwith
      have hrest := ih hwith
      exact hrest

/-- Being keyed is a matter of the privilege. -/
theorem AccountFrm.Keyed.of_priv {after : AccountFrm} (hkeyed : account.Keyed)
    (hpriv : after.priv = account.priv) : after.Keyed := by
  have hthresholds : after.thresholds = account.thresholds := by
    unfold thresholds
    rw [hpriv]
  constructor
  · exact hpriv ▸ hkeyed.signersOnce
  · exact hthresholds ▸ hkeyed.typesOnce
  · exact hpriv ▸ hkeyed.masterWeight
  · exact hpriv ▸ hkeyed.weights
  · exact hthresholds ▸ hkeyed.txThreshold

theorem OperationFrm.keyed_change {lcl : Closed} {ope : Operation} {source : Address}
    {stackSize : ℕ} {change : AccountFrm → AccountFrm}
    (hvalid : checkValid lib lcl ope source stackSize = .success)
    (hchange : ope.body.privilegeChange? = some change) (hkeyed : account.Keyed) :
    (change account).Keyed := by
  unfold checkValid at hvalid
  unfold OperationBody.privilegeChange? at hchange
  cases hbody : ope.body with
  | setSignerWeight message =>
      simp only [hbody, Option.some.injEq] at hchange hvalid
      split_ifs at hvalid
      exact hchange ▸ keyed_signerWeightChange hvalid hkeyed
  | setThreshold message =>
      simp only [hbody, Option.some.injEq] at hchange
      exact hchange ▸ keyed_thresholdChange message hkeyed
  | setPrivilege message =>
      simp only [hbody, Option.some.injEq] at hchange hvalid
      split_ifs at hvalid
      exact hchange ▸ keyed_privilegeChange hvalid hkeyed
  | _ =>
      rw [hbody] at hchange
      cases hchange

variable {Allowed : Address → OperationBody → AccountFrm → Prop}

/-- No operation can list a signer or a type twice. -/
theorem Reachable.keyed (hreach : Reachable lib Allowed account) : account.Keyed := by
  induction hreach with
  | @createAccount _ _ _ _ message _ hbody hvalid tran index hcreated =>
      have hnew := OperationFrm.newPrivilege_of_checkValid hbody hvalid tran index
      obtain ⟨-, hpriv⟩ := OperationFrm.withMetadatas_priv hcreated
      have hkeyed : ({ address := [], priv := message.priv.getD {} } : AccountFrm).Keyed :=
        ⟨hnew.signersOnce, hnew.typesOnce, hnew.masterWeight,
          fun signer hsigner => (hnew.signers signer hsigner).weight, hnew.txThreshold⟩
      exact hkeyed.of_priv hpriv
  | payCoin hbody hvalid =>
      have hmaster : (0 : ℤ) ≤ 1 ∧ (1 : ℤ) ≤ uint32Max := by decide
      exact ⟨List.nodup_nil, List.nodup_nil, hmaster,
        fun _ hmem => absurd hmem List.not_mem_nil, zero_le_one⟩
  | change hreach hsource hvalid hchange hallowed ih =>
      exact OperationFrm.keyed_change hvalid hchange ih
  | other hreach haddress hpriv ih => exact ih.of_priv hpriv

/-! ### Other signers only -/

/-- An account under the address `own` that does not have it among its signers. -/
structure AccountFrm.SignedByOthers (own : Address) (account : AccountFrm) : Prop where
  address : account.address = own
  signers : ∀ signer ∈ account.priv.signers, signer.address ≠ own

namespace AccountFrm.SignedByOthers

variable {own : Address}

theorem ite {p : Prop} [Decidable p] {after : AccountFrm} (hafter : after.SignedByOthers own)
    (hothers : account.SignedByOthers own) :
    (if p then after else account).SignedByOthers own := by
  split_ifs
  · exact hafter
  · exact hothers

theorem setProtoMasterWeight (hothers : account.SignedByOthers own) (weight : ℤ) :
    (account.setProtoMasterWeight weight).SignedByOthers own :=
  ⟨hothers.address, hothers.signers⟩

theorem setProtoTxThreshold (hothers : account.SignedByOthers own) (threshold : ℤ) :
    (account.setProtoTxThreshold threshold).SignedByOthers own :=
  ⟨hothers.address, hothers.signers⟩

theorem updateSigners (hothers : account.SignedByOthers own) {signers : List Signer}
    (hsigners : ∀ signer ∈ signers, signer.address ≠ own) :
    (signers.foldl (fun account signer => account.updateSigner signer)
      account).SignedByOthers own := by
  refine List.foldlRecOn signers _ hothers fun after hafter signer hsigner => ?_
  refine ⟨hafter.address, fun other hother => ?_⟩
  rw [signers_updateSigner] at hother
  rcases mem_upsert hother with hold | ⟨-, rfl⟩
  · exact hafter.signers other hold
  · exact hsigners _ hsigner

theorem updateTypeThresholds (hothers : account.SignedByOthers own)
    (typeThresholds : List OperationTypeThreshold) :
    (typeThresholds.foldl (fun account typeThreshold => account.updateTypeThreshold typeThreshold)
      account).SignedByOthers own :=
  List.foldlRecOn typeThresholds _ hothers fun _ hothers _ _ =>
    ⟨hothers.address, hothers.signers⟩

theorem change {body : OperationBody} {change : AccountFrm → AccountFrm}
    (hchange : body.privilegeChange? = some change)
    (hsigners : ∀ signer ∈ body.signers, signer.address ≠ own)
    (hothers : account.SignedByOthers own) : (change account).SignedByOthers own := by
  cases body with
  | setSignerWeight message =>
      obtain rfl := Option.some.inj hchange
      exact (ite (hothers.setProtoMasterWeight _) hothers).updateSigners hsigners
  | setThreshold message =>
      obtain rfl := Option.some.inj hchange
      exact (ite (hothers.setProtoTxThreshold _) hothers).updateTypeThresholds _
  | setPrivilege message =>
      obtain rfl := Option.some.inj hchange
      have hlisted := (ite (p := message.masterWeight ≠ [] ∧
        String64.stoi64 message.masterWeight ≥ 0)
        (hothers.setProtoMasterWeight (String64.stoi64 message.masterWeight))
        hothers).updateSigners hsigners
      exact (ite (hlisted.setProtoTxThreshold _) hlisted).updateTypeThresholds _
  | _ => cases hchange

end AccountFrm.SignedByOthers

/-- An operation under which an account that is to sign for itself is spelled as it is on
record. -/
def SpelledAlike (source : Address) (body : OperationBody) (account : AccountFrm) : Prop :=
  account.address ∈ body.signers.map Signer.address → source = account.address

/-- What `CheckValid` does about the source of the operation. -/
theorem OperationFrm.signers_ne_of_checkValid {lcl : Closed} {ope : Operation} {source : Address}
    {stackSize : ℕ} (hvalid : checkValid lib lcl ope source stackSize = .success) :
    ∀ signer ∈ ope.body.signers, signer.address ≠ source := by
  unfold checkValid at hvalid
  unfold OperationBody.signers
  cases hbody : ope.body with
  | setSignerWeight message =>
      simp only [hbody] at hvalid
      split_ifs at hvalid
      exact fun signer hsigner => ((of_checkSetSignerWeight hvalid).2 signer hsigner).other
  | setPrivilege message =>
      simp only [hbody] at hvalid
      split_ifs at hvalid
      exact fun signer hsigner => ((of_checkSetPrivilege hvalid).2 signer hsigner).other
  | _ => exact fun _ hmem => absurd hmem List.not_mem_nil

theorem Reachable.signedByOthers (hreach : Reachable lib SpelledAlike account) :
    account.SignedByOthers account.address := by
  induction hreach with
  | createAccount hbody hvalid tran index hcreated =>
      have hnew := OperationFrm.newPrivilege_of_checkValid hbody hvalid tran index
      obtain ⟨haddress, hpriv⟩ := OperationFrm.withMetadatas_priv hcreated
      refine ⟨rfl, fun signer hsigner => ?_⟩
      rw [hpriv] at hsigner
      rw [haddress]
      exact (hnew.signers signer hsigner).other
  | payCoin hbody hvalid => exact ⟨rfl, fun _ hmem => absurd hmem List.not_mem_nil⟩
  | @change lcl ope source stackSize account change hreach hsource hvalid hchange hallowed ih =>
      have hchanged := ih.change hchange fun signer hsigner heq => by
        have hsource := hallowed (List.mem_map.mpr ⟨signer, hsigner, heq⟩)
        exact OperationFrm.signers_ne_of_checkValid hvalid signer hsigner (heq.trans hsource.symm)
      rwa [hchanged.address]
  | other hreach haddress hpriv ih =>
      refine ⟨rfl, fun signer hsigner => ?_⟩
      rw [haddress]
      exact ih.signers signer (hpriv ▸ hsigner)

/-- **Multi-signature authorization is exact.**  An account that lists itself only where it
is spelled as it is on record never gets itself as a signer; its signers are pairwise
distinct, and `SignerHashPriv` adds up the weights of those that have signed. -/
theorem multi_signature_exact (hreach : Reachable lib SpelledAlike account) :
    (account.priv.signers.map Signer.address).Nodup ∧
      account.address ∉ account.priv.signers.map Signer.address ∧
      ∀ (env : TransactionEnv) (type : ℤ),
        TransactionFrm.signerHashPriv lib env account type = true ↔
          TransactionFrm.requiredWeight account type ≤
            TransactionFrm.signedWeight lib env account := by
  refine ⟨hreach.keyed.signersOnce, fun hmem => ?_, fun env type => ?_⟩
  · obtain ⟨signer, hsigner, heq⟩ := List.mem_map.mp hmem
    exact hreach.signedByOthers.signers signer hsigner heq
  · exact TransactionFrm.signerHashPriv_iff lib env
      (fun signer hsigner => (hreach.keyed.weights signer hsigner).1) type

end

/-! ## An account that signs for itself -/

/-- An operation that gives the account of the payer one more signer. -/
def addSigner (source signer : Address) : Operation where
  sourceAddress := source
  body := .setSignerWeight { masterWeight := -1, signers := [⟨signer, 1⟩] }

/-- The payer's account after a payment has created it and it has got the signer. -/
def joined (signer : Address) : AccountFrm :=
  OperationFrm.signerWeightChange { masterWeight := -1, signers := [⟨signer, 1⟩] }
    (OperationFrm.paidAccount payerAddress)

theorem reachable_joined {Allowed : Address → OperationBody → AccountFrm → Prop}
    (source signer : Address) (hsource : decodeAddress source = decodeAddress payerAddress)
    (hvalid :
      OperationFrm.checkValid sampleLibrary sampleClosed (addSigner source signer) source 0 =
      .success)
    (hallowed : Allowed source (addSigner source signer).body
      (OperationFrm.paidAccount payerAddress)) :
    Reachable sampleLibrary Allowed (joined signer) := by
  have hpayment : OperationFrm.checkValid sampleLibrary sampleClosed
      { body := .payCoin { destAddress := payerAddress, amount := 1 } } callerAddress 0 =
        .success := by
    decide +kernel
  exact .change (.payCoin rfl hpayment) hsource hvalid rfl hallowed

/-- The payer and the caller, who may both sign. -/
theorem multi_signature_exact_joined :
    payerAddress ∉ (joined callerAddress).priv.signers.map Signer.address :=
  (multi_signature_exact (reachable_joined payerAddress callerAddress rfl (by decide +kernel)
    fun _ => rfl)).2.1

/-- "bQ0U7RFD8N18qGcjog4ei556MsLcBGXL8FVK", the payer's address in another spelling. -/
def payerAgain : Address :=
  [98, 81, 48] ++ payerAddress.drop 3

/-- A block in which the payer, under that other spelling, becomes its own signer. -/
def selfSigningBlock : Executed where
  lcl := sampleClosed
  rt := payingOut callerAddress
  value := {
    txset := [{
      transaction := {
        sourceAddress := payerAgain
        nonce := 1
        operations := [addSigner payerAgain payerAddress] }
      signatures := [⟨payerAddress, payerAddress⟩] }]
    ledgerSeq := 2 }
  mode := .check

/-- The operation passes, and the block with it is accepted and writes the account. -/
theorem payer_signs_for_itself :
    (¬∀ account : AccountFrm, Reachable sampleLibrary (fun _ _ _ => True) account →
        account.address ∉ account.priv.signers.map Signer.address) ∧
      (selfSigningBlock.applied sampleLibrary).accepted = true ∧
      ∃ account, (selfSigningBlock.treeAfter sampleLibrary).lookup (decodeAddress payerAddress) =
          some account ∧
        account.address = payerAddress ∧
        payerAddress ∈ account.priv.signers.map Signer.address := by
  refine ⟨fun hall => ?_, by decide +kernel, ?_⟩
  · have hreach : Reachable sampleLibrary (fun _ _ _ => True) (joined payerAddress) :=
      reachable_joined payerAgain payerAddress (by decide +kernel) (by decide +kernel) trivial
    exact hall _ hreach (by decide +kernel)
  · have hfound : ∃ account ∈ ((selfSigningBlock.treeAfter sampleLibrary).lookup
        (decodeAddress payerAddress)).toList, account.address = payerAddress ∧
          payerAddress ∈ account.priv.signers.map Signer.address := by
      decide +kernel
    obtain ⟨account, hmem, hself⟩ := hfound
    exact ⟨account, Option.mem_toList.mp hmem, hself⟩

end CegChain
