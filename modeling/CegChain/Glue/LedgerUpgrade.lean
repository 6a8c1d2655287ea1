import CegChain.Consensus.Message
import CegChain.Lib.OrderedMap
import CegChain.Lib.Protobuf
import CegChain.Utils.Strings

/-!
# Votes for an upgrade of the ledger

`LedgerUpgrade` of `glue/ledger_upgrade.cpp` keeps the last notice that came in from
each sender (`Recv`), forgets those that are older than five minutes (`OnTimer`) and
counts, for a proposal, how many validators ask for the same upgrade (`GetValid`).

A notice is signed together with its nonce, the time at which it was made, and the
nonce is not looked at again: a notice that comes in late takes the place of a newer
one.  The votes are the newest notices of their senders exactly when the last notice
that came in of each sender is its newest (`upgradeVotes_latest_iff`).
-/

namespace CegChain

/-- `protocol::LedgerUpgrade`. -/
structure Protocol.LedgerUpgrade where
  newLedgerVersion : Int64 := 0
  newValidator : Bytes := []
  chainId : Int64 := 0
  deriving DecidableEq

/-- `LedgerUpgrade::SerializeAsString`. -/
def Protocol.LedgerUpgrade.serializeAsString (upgrade : Protocol.LedgerUpgrade) : Bytes :=
  Protobuf.numberField 8 upgrade.newLedgerVersion.toUInt64.toNat ++
    (Protobuf.bytesField 18 upgrade.newValidator ++
      (Protobuf.numberField 24 upgrade.chainId.toUInt64.toNat ++ []))

theorem toNat_toUInt64_inj {a b : Int64} (heq : a.toUInt64.toNat = b.toUInt64.toNat) : a = b :=
  Int64.toBitVec_inj.mp (congrArg UInt64.toBitVec (UInt64.toNat_inj.mp heq))

/-- The string of an upgrade says all of it. -/
theorem Protocol.LedgerUpgrade.serializeAsString_inj {upgrade upgrade' : Protocol.LedgerUpgrade}
    (heq : upgrade.serializeAsString = upgrade'.serializeAsString) : upgrade = upgrade' := by
  -- each field is read back, and the next one begins with another tag
  have hchain : ∀ n tag, (24 : UInt8) ≠ tag →
      ∀ b ∈ (Protobuf.numberField 24 n ++ []).head?, b ≠ tag := fun n tag hne =>
    Protobuf.head?_numberField hne (by simp) n
  have hrest : ∀ bytes n, ∀ b ∈ (Protobuf.bytesField 18 bytes ++
      (Protobuf.numberField 24 n ++ [])).head?, b ≠ 8 := fun bytes n =>
    Protobuf.head?_bytesField (by decide) (hchain n 8 (by decide)) bytes
  have hversion := congrArg (Protobuf.readNumberField 8) heq
  unfold serializeAsString at hversion
  rw [Protobuf.readNumberField_numberField (hrest _ _),
    Protobuf.readNumberField_numberField (hrest _ _)] at hversion
  obtain ⟨hversion, hrest'⟩ := Prod.mk.inj (Option.some.inj hversion)
  have hvalidator := congrArg (Protobuf.readBytesField 18) hrest'
  rw [Protobuf.readBytesField_bytesField (hchain _ 18 (by decide)),
    Protobuf.readBytesField_bytesField (hchain _ 18 (by decide))] at hvalidator
  obtain ⟨hvalidator, hchain'⟩ := Prod.mk.inj (Option.some.inj hvalidator)
  have hid := congrArg (Protobuf.readNumberField 24) hchain'
  rw [Protobuf.readNumberField_numberField (by simp),
    Protobuf.readNumberField_numberField (by simp)] at hid
  obtain ⟨hid, -⟩ := Prod.mk.inj (Option.some.inj hid)
  cases upgrade
  cases upgrade'
  cases toNat_toUInt64_inj hversion
  cases hvalidator
  cases toNat_toUInt64_inj hid
  rfl

/-- `protocol::LedgerUpgradeNotify`. -/
structure Protocol.LedgerUpgradeNotify where
  nonce : ℤ
  upgrade : Protocol.LedgerUpgrade
  signature : Signature
  deriving DecidableEq

namespace Glue

open Protocol (LedgerUpgradeNotify)

/-- What notices are checked and signed with. -/
structure UpgradeKeys where
  /-- `PublicKey::Verify` of data, signature and public key. -/
  verify : Bytes → Bytes → Bytes → Bool
  /-- `GetEncAddress` of a public key. -/
  getEncAddress : Bytes → Bytes
  /-- `SignConsensusData`. -/
  signConsensusData : Bytes → Signature
  /-- `General::GetSelfChainId()`. -/
  selfChainId : Int64

/-- `LedgerUpgradeFrm`. -/
structure LedgerUpgradeFrm where
  recvTime : ℤ
  address : Bytes
  msg : LedgerUpgradeNotify
  deriving DecidableEq

/-- `LedgerUpgrade`. -/
structure LedgerUpgrade where
  lastSendTime : ℤ := 0
  localState : Protocol.LedgerUpgrade := {}
  /-- `current_states_`. -/
  currentStates : List (Bytes × LedgerUpgradeFrm) := []
  deriving DecidableEq

namespace LedgerUpgrade

/-- Five minutes in microseconds, after which a notice expires. -/
def expireTime : ℤ := 300 * 1000000

/-- Half a minute in microseconds, after which the own notice is sent again. -/
def sendInterval : ℤ := 30 * 1000000

variable (keys : UpgradeKeys)

/-- The data that is signed. -/
def rawData (upgrade : Protocol.LedgerUpgrade) (nonce : ℤ) : Bytes :=
  upgrade.serializeAsString ++ String64.toBytes nonce

/-- The checks of `Recv`. -/
def accepts (msg : LedgerUpgradeNotify) : Bool :=
  keys.verify (rawData msg.upgrade msg.nonce) msg.signature.signData msg.signature.publicKey &&
    decide (msg.upgrade.chainId = keys.selfChainId)

/-- The sender of a notice. -/
def sender (msg : LedgerUpgradeNotify) : Bytes :=
  keys.getEncAddress msg.signature.publicKey

/-- `Recv`, at the time `now`. -/
def recv (now : ℤ) (msg : LedgerUpgradeNotify) (s : LedgerUpgrade) : LedgerUpgrade :=
  if accepts keys msg then
    { s with currentStates :=
        OrderedMap.insert (sender keys msg) ⟨now, sender keys msg, msg⟩ s.currentStates }
  else s

/-- The loop of `OnTimer` that deletes what has expired. -/
def deleteExpired (currentTime : ℤ) (s : LedgerUpgrade) : LedgerUpgrade :=
  { s with currentStates :=
      s.currentStates.filter fun entry => ¬ entry.2.recvTime + expireTime < currentTime }

/-- The notice that `OnTimer` makes. -/
def ownNotify (currentTime : ℤ) (s : LedgerUpgrade) : Option LedgerUpgradeNotify :=
  if currentTime - s.lastSendTime > sendInterval ∧ s.localState.newLedgerVersion > 0 then
    some ⟨currentTime, s.localState, keys.signConsensusData (rawData s.localState currentTime)⟩
  else none

/-- `OnTimer`; `now` is the time at which the own notice is received. -/
def onTimer (currentTime now : ℤ) (isValidator : Bool) (s : LedgerUpgrade) : LedgerUpgrade :=
  let s := deleteExpired currentTime s
  match ownNotify keys currentTime s with
  | none => s
  | some notify =>
      let s := { s with lastSendTime := currentTime }
      if isValidator then recv keys now notify s else s

/-- One turn of the counting loop of `GetValid`. -/
def tally (validatorSet : List Bytes) (counter : List (Bytes × Protocol.LedgerUpgrade × ℕ))
    (address : Bytes) (upgrade : Protocol.LedgerUpgrade) :
    List (Bytes × Protocol.LedgerUpgrade × ℕ) :=
  let key := upgrade.serializeAsString
  let counter := OrderedMap.insertNew key (upgrade, 0) counter
  if address ∈ validatorSet then
    match counter.lookup key with
    | some (first, count) => OrderedMap.insert key (first, count + 1) counter
    | none => counter
  else counter

/-- `counter_upgrade` of `GetValid`. -/
def counterUpgrade (validatorSet : List Bytes) (states : List (Bytes × LedgerUpgradeFrm)) :
    List (Bytes × Protocol.LedgerUpgrade × ℕ) :=
  states.foldl (fun counter entry =>
    tally validatorSet counter entry.2.address entry.2.msg.upgrade) []

/-- `GetValid`. -/
def getValid (validators : List Bytes) (quorumSize : ℕ) (s : LedgerUpgrade) :
    Option Protocol.LedgerUpgrade :=
  if s.currentStates.length = 0 then none
  else ((counterUpgrade validators s.currentStates).find? fun entry =>
    decide (entry.2.2 ≥ quorumSize)).map fun entry => entry.2.1

/-- `ConfNewVersion`. -/
def confNewVersion (newVersion : Int64) (s : LedgerUpgrade) : LedgerUpgrade :=
  { s with localState :=
      { s.localState with newLedgerVersion := newVersion, chainId := keys.selfChainId } }

/-- `LedgerHasUpgrade`. -/
def ledgerHasUpgrade (s : LedgerUpgrade) : LedgerUpgrade :=
  { s with localState := {}, currentStates := [] }

/-! ## Runs -/

/-- What happens to the votes of a node. -/
inductive Event where
  | recv (now : ℤ) (msg : LedgerUpgradeNotify)
  | onTimer (currentTime now : ℤ) (isValidator : Bool)
  | confNewVersion (newVersion : Int64)
  | ledgerHasUpgrade

/-- The votes after an event. -/
def step (s : LedgerUpgrade) : Event → LedgerUpgrade
  | .recv now msg => s.recv keys now msg
  | .onTimer currentTime now isValidator => s.onTimer keys currentTime now isValidator
  | .confNewVersion newVersion => s.confNewVersion keys newVersion
  | .ledgerHasUpgrade => s.ledgerHasUpgrade

/-- The notices of the current upgrade after an event, in the order in which they came in. -/
def note (s : LedgerUpgrade) (notices : List LedgerUpgradeNotify) :
    Event → List LedgerUpgradeNotify
  | .recv _ msg => notices ++ [msg].filter (accepts keys)
  | .onTimer currentTime _ isValidator =>
      notices ++
        ((ownNotify keys currentTime (deleteExpired currentTime s)).toList.filter fun msg =>
        isValidator && accepts keys msg)
  | .confNewVersion _ => notices
  | .ledgerHasUpgrade => []

/-- The votes after a run, and the notices that came in. -/
def run (events : List Event) : LedgerUpgrade × List LedgerUpgradeNotify :=
  events.foldl (fun r event => (step keys r.1 event, note keys r.1 r.2 event)) ({}, [])

/-- The time at which an event deletes what has expired. -/
def Event.currentTime? : Event → Option ℤ
  | .onTimer currentTime _ _ => some currentTime
  | _ => none

/-- No notice that is stored has expired when the timer looks. -/
def InWindow (events : List Event) : Prop :=
  ∀ before event, before ++ [event] <+: events → ∀ currentTime ∈ event.currentTime?,
    ∀ entry ∈ (run keys before).1.currentStates, currentTime ≤ entry.2.recvTime + expireTime

/-! ## What is stored -/

/-- The last notice of a sender that came in. -/
def lastOf (address : Bytes) (notices : List LedgerUpgradeNotify) : Option LedgerUpgradeNotify :=
  (notices.filter fun msg => sender keys msg = address).getLast?

theorem lastOf_append_singleton (address : Bytes) (notices : List LedgerUpgradeNotify)
    (msg : LedgerUpgradeNotify) :
    lastOf keys address (notices ++ [msg]) =
      if sender keys msg = address then some msg else lastOf keys address notices := by
  unfold lastOf
  rw [List.filter_append, List.getLast?_append]
  split_ifs with hsender
  · simp [hsender]
  · simp [hsender]

theorem mem_of_lastOf {address : Bytes} {notices : List LedgerUpgradeNotify}
    {msg : LedgerUpgradeNotify} (hlast : lastOf keys address notices = some msg) :
    msg ∈ notices ∧ sender keys msg = address := by
  have hmem := List.mem_of_getLast? hlast
  rwa [List.mem_filter, decide_eq_true_eq] at hmem

/-- A timer within the window deletes nothing. -/
theorem deleteExpired_of_window {s : LedgerUpgrade} {currentTime : ℤ}
    (hwindow : ∀ entry ∈ s.currentStates, currentTime ≤ entry.2.recvTime + expireTime) :
    s.deleteExpired currentTime = s := by
  have hkeep : (s.currentStates.filter fun entry =>
      ¬ entry.2.recvTime + expireTime < currentTime) = s.currentStates := by
    refine List.filter_eq_self.mpr fun entry hentry => ?_
    simpa using hwindow entry hentry
  rw [LedgerUpgrade.deleteExpired, hkeep]

/-- The votes hold the last notice of each sender, under its address, in the order
of a `std::map`. -/
structure Tracks (s : LedgerUpgrade) (notices : List LedgerUpgradeNotify) : Prop where
  vote : ∀ address, (s.currentStates.lookup address).map LedgerUpgradeFrm.msg =
    lastOf keys address notices
  address : ∀ entry ∈ s.currentStates, entry.2.address = entry.1
  sorted : s.currentStates.Pairwise fun a b => a.1 ≤ b.1
  nodup : (s.currentStates.map Prod.fst).Nodup

namespace Tracks

variable {keys} {s : LedgerUpgrade} {notices : List LedgerUpgradeNotify}

theorem nil (localState : Protocol.LedgerUpgrade) (lastSendTime : ℤ) :
    Tracks keys ⟨lastSendTime, localState, []⟩ [] where
  vote _ := rfl
  address := by simp
  sorted := .nil
  nodup := .nil

/-- Only the stored notices matter. -/
theorem congr (ht : Tracks keys s notices) {s' : LedgerUpgrade}
    (heq : s'.currentStates = s.currentStates) : Tracks keys s' notices where
  vote := heq ▸ ht.vote
  address := heq ▸ ht.address
  sorted := heq ▸ ht.sorted
  nodup := heq ▸ ht.nodup

theorem recv (ht : Tracks keys s notices) (now : ℤ) (msg : LedgerUpgradeNotify) :
    Tracks keys (s.recv keys now msg) (notices ++ [msg].filter (accepts keys)) := by
  unfold LedgerUpgrade.recv
  cases haccepts : accepts keys msg with
  | false =>
      rw [List.filter_singleton, haccepts]
      simpa using ht
  | true =>
      rw [List.filter_singleton, haccepts, if_pos rfl]
      refine ⟨fun address => ?_, fun entry hentry => ?_, OrderedMap.pairwise_insert _ _ ht.sorted,
        OrderedMap.nodup_insert _ _ ht.nodup⟩
      · rw [cond_true, lastOf_append_singleton]
        split_ifs with hsender
        · dsimp only
          rw [← hsender, OrderedMap.lookup_insert_self, Option.map_some]
        · dsimp only
          rw [OrderedMap.lookup_insert_of_ne (Ne.symm hsender), ht.vote]
      · rcases OrderedMap.mem_insert.mp hentry with rfl | ⟨hold, -⟩
        · rfl
        · exact ht.address entry hold

theorem step (ht : Tracks keys s notices) (event : Event)
    (hwindow : ∀ currentTime ∈ event.currentTime?, ∀ entry ∈ s.currentStates,
      currentTime ≤ entry.2.recvTime + expireTime) :
    Tracks keys (s.step keys event) (note keys s notices event) := by
  cases event with
  | recv now msg => exact ht.recv now msg
  | onTimer currentTime now isValidator =>
      have hdelete := deleteExpired_of_window (hwindow currentTime rfl)
      unfold LedgerUpgrade.step LedgerUpgrade.onTimer note
      dsimp only
      rw [hdelete]
      rcases ownNotify keys currentTime s with _ | notify
      · simpa using ht
      · have hsent : Tracks keys { s with lastSendTime := currentTime } notices := ht.congr rfl
        cases isValidator with
        | false => simpa using hsent
        | true => simpa using hsent.recv now notify
  | confNewVersion newVersion => exact ht.congr rfl
  | ledgerHasUpgrade => exact nil _ _

end Tracks

/-- **The stored notices**, after a run in which none expires. -/
theorem tracks_run {events : List Event} (hwindow : InWindow keys events) :
    Tracks keys (run keys events).1 (run keys events).2 := by
  induction events using List.reverseRecOn with
  | nil => exact .nil _ _
  | append_singleton events event ih =>
      have hbefore : InWindow keys events := fun before earlier hinitial =>
        hwindow before earlier (hinitial.trans (List.prefix_append _ _))
      have hstep := (ih hbefore).step event (hwindow events event (List.prefix_refl _))
      rwa [run, List.foldl_append]

/-! ## The count -/

/-- The voters for an upgrade. -/
def votersFor (validatorSet : List Bytes) (upgrade : Protocol.LedgerUpgrade)
    (states : List (Bytes × LedgerUpgradeFrm)) : List (Bytes × LedgerUpgradeFrm) :=
  states.filter fun entry => entry.2.address ∈ validatorSet ∧ entry.2.msg.upgrade = upgrade

/-- Every count is under the string of its upgrade, and is the number of its voters. -/
structure Counts (validatorSet : List Bytes) (states : List (Bytes × LedgerUpgradeFrm))
    (counter : List (Bytes × Protocol.LedgerUpgrade × ℕ)) : Prop where
  nodup : (counter.map Prod.fst).Nodup
  key : ∀ entry ∈ counter, entry.1 = entry.2.1.serializeAsString
  count : ∀ upgrade : Protocol.LedgerUpgrade,
    ((counter.lookup upgrade.serializeAsString).map Prod.snd).getD 0 =
      (votersFor validatorSet upgrade states).length

variable {validatorSet : List Bytes} {states : List (Bytes × LedgerUpgradeFrm)}
  {counter : List (Bytes × Protocol.LedgerUpgrade × ℕ)}

theorem lookup_tally (address : Bytes) (upgrade : Protocol.LedgerUpgrade) (key : Bytes) :
    (tally validatorSet counter address upgrade).lookup key =
      if key = upgrade.serializeAsString then
        let old := (counter.lookup upgrade.serializeAsString).getD (upgrade, 0)
        some (old.1, old.2 + if address ∈ validatorSet then 1 else 0)
      else counter.lookup key := by
  have hnew := fun key' => OrderedMap.lookup_insertNew upgrade.serializeAsString key' (upgrade, 0)
    counter
  unfold tally
  dsimp only
  rw [hnew, if_pos rfl]
  split_ifs with hvalidator hkey hkey
  · rw [hkey, OrderedMap.lookup_insert_self]
  · rw [OrderedMap.lookup_insert_of_ne hkey, hnew, if_neg hkey]
  · rw [hkey, hnew, if_pos rfl]
    rfl
  · rw [hnew, if_neg hkey]

theorem votersFor_append (upgrade : Protocol.LedgerUpgrade) (entry : Bytes × LedgerUpgradeFrm) :
    (votersFor validatorSet upgrade (states ++ [entry])).length =
      (votersFor validatorSet upgrade states).length +
        if entry.2.address ∈ validatorSet ∧ entry.2.msg.upgrade = upgrade then 1 else 0 := by
  unfold votersFor
  rw [List.filter_append, List.length_append, List.filter_singleton]
  split_ifs with hvote
  · simp [hvote]
  · simp [hvote]

theorem nodup_tally (hnodup : (counter.map Prod.fst).Nodup) (validatorSet : List Bytes)
    (address : Bytes) (upgrade : Protocol.LedgerUpgrade) :
    ((tally validatorSet counter address upgrade).map Prod.fst).Nodup := by
  have hnew := OrderedMap.nodup_insertNew upgrade.serializeAsString (upgrade, 0) hnodup
  unfold tally
  dsimp only
  split
  · split
    · exact OrderedMap.nodup_insert _ _ hnew
    · exact hnew
  · exact hnew

theorem Counts.tally (hc : Counts validatorSet states counter) (entry : Bytes × LedgerUpgradeFrm) :
    Counts validatorSet (states ++ [entry])
      (tally validatorSet counter entry.2.address entry.2.msg.upgrade) := by
  have hnodup := nodup_tally hc.nodup validatorSet entry.2.address entry.2.msg.upgrade
  refine ⟨hnodup, fun ⟨key, upgrade, count⟩ hmem => ?_, fun upgrade => ?_⟩
  · rw [← OrderedMap.lookup_eq_some_iff hnodup, lookup_tally] at hmem
    by_cases hkey : key = entry.2.msg.upgrade.serializeAsString
    · -- the upgrade that was counted first has the same string
      rw [if_pos hkey] at hmem
      cases hlookup : counter.lookup entry.2.msg.upgrade.serializeAsString with
      | none =>
          rw [hlookup] at hmem
          rw [← (Prod.mk.inj (Option.some.inj hmem)).1]
          exact hkey
      | some old =>
          rw [hlookup] at hmem
          rw [← (Prod.mk.inj (Option.some.inj hmem)).1]
          exact hkey.trans (hc.key _ (OrderedMap.mem_of_lookup hlookup))
    · rw [if_neg hkey] at hmem
      exact hc.key _ (OrderedMap.mem_of_lookup hmem)
  · rw [lookup_tally, votersFor_append, ← hc.count upgrade]
    by_cases hkey : upgrade.serializeAsString = entry.2.msg.upgrade.serializeAsString
    · obtain rfl := Protocol.LedgerUpgrade.serializeAsString_inj hkey
      rw [if_pos rfl]
      cases counter.lookup entry.2.msg.upgrade.serializeAsString <;> simp
    · have hne : entry.2.msg.upgrade ≠ upgrade := fun heq => hkey (heq ▸ rfl)
      rw [if_neg hkey, if_neg fun h => hne h.2, Nat.add_zero]

theorem counts_counterUpgrade (validatorSet : List Bytes)
    (states : List (Bytes × LedgerUpgradeFrm)) :
    Counts validatorSet states (counterUpgrade validatorSet states) := by
  induction states using List.reverseRecOn with
  | nil => exact ⟨.nil, by simp [counterUpgrade], fun _ => rfl⟩
  | append_singleton states entry ih =>
      rw [counterUpgrade, List.foldl_append]
      exact ih.tally entry

/-- An upgrade that is returned has its number of voters. -/
theorem length_votersFor_of_getValid {validators : List Bytes} {quorumSize : ℕ} {s : LedgerUpgrade}
    {upgrade : Protocol.LedgerUpgrade} (hvalid : s.getValid validators quorumSize = some upgrade) :
    quorumSize ≤ (votersFor validators upgrade s.currentStates).length := by
  have hc := counts_counterUpgrade validators s.currentStates
  unfold getValid at hvalid
  split at hvalid
  · cases hvalid
  · obtain ⟨⟨key, first, count⟩, hfind, rfl⟩ := Option.map_eq_some_iff.mp hvalid
    have hmem := List.mem_of_find?_eq_some hfind
    have hquorum := List.find?_some hfind
    obtain rfl : key = first.serializeAsString := hc.key _ hmem
    have hcount := hc.count first
    rw [(OrderedMap.lookup_eq_some_iff hc.nodup).mpr hmem] at hcount
    rw [← hcount]
    exact of_decide_eq_true hquorum

/-- What is returned depends on who votes for what. -/
theorem getValid_congr {s s' : LedgerUpgrade}
    (heq : (s.currentStates.map fun entry => (entry.2.address, entry.2.msg.upgrade)) =
      s'.currentStates.map fun entry => (entry.2.address, entry.2.msg.upgrade))
    (validators : List Bytes) (quorumSize : ℕ) :
    s.getValid validators quorumSize = s'.getValid validators quorumSize := by
  have hlength := congrArg List.length heq
  rw [List.length_map, List.length_map] at hlength
  have hcounter : counterUpgrade validators s.currentStates =
      counterUpgrade validators s'.currentStates := by
    have hfold := congrArg (List.foldl (fun counter vote =>
      LedgerUpgrade.tally validators counter vote.1 vote.2) []) heq
    rwa [List.foldl_map, List.foldl_map] at hfold
  unfold getValid
  rw [hlength, hcounter]

/-! ## The newest notices -/

/-- The notice of a sender with the highest nonce: another with this nonce asks for
the same upgrade. -/
def Latest (notices : List LedgerUpgradeNotify) (address : Bytes) (msg : LedgerUpgradeNotify) :
    Prop :=
  msg ∈ notices ∧ sender keys msg = address ∧
    ∀ other ∈ notices, sender keys other = address →
      other.nonce < msg.nonce ∨ other.nonce = msg.nonce ∧ other.upgrade = msg.upgrade

/-- The vote that is counted for each sender is its latest notice. -/
def CountsLatest (s : LedgerUpgrade) (notices : List LedgerUpgradeNotify) : Prop :=
  ∀ address, match s.currentStates.lookup address with
    | some frm => Latest keys notices address frm.msg
    | none => ∀ msg ∈ notices, sender keys msg ≠ address

/-- The last notice of each sender that came in is its latest. -/
def LatestLast (notices : List LedgerUpgradeNotify) : Prop :=
  ∀ address msg, lastOf keys address notices = some msg → Latest keys notices address msg

variable {keys}

/-- Two latest notices of a sender ask for the same. -/
theorem Latest.upgrade_eq {notices notices' : List LedgerUpgradeNotify} {address : Bytes}
    {msg msg' : LedgerUpgradeNotify} (hlatest : Latest keys notices address msg)
    (hlatest' : Latest keys notices' address msg') (hsame : ∀ msg, msg ∈ notices ↔ msg ∈ notices') :
    msg.upgrade = msg'.upgrade := by
  obtain ⟨hmem, hsender, hmax⟩ := hlatest
  obtain ⟨hmem', hsender', hmax'⟩ := hlatest'
  rcases hmax msg' ((hsame msg').mpr hmem') hsender' with hlt | ⟨-, heq⟩
  · rcases hmax' msg ((hsame msg).mp hmem) hsender with hlt' | ⟨-, heq⟩
    · omega
    · exact heq
  · exact heq.symm

theorem lastOf_eq_none_iff {address : Bytes} {notices : List LedgerUpgradeNotify} :
    lastOf keys address notices = none ↔ ∀ msg ∈ notices, sender keys msg ≠ address := by
  rw [lastOf, List.getLast?_eq_none_iff, List.filter_eq_nil_iff]
  simp

namespace Tracks

variable {s s' : LedgerUpgrade}
  {notices notices' : List LedgerUpgradeNotify}

/-- Nodes that check alike track alike, whatever they sign with. -/
theorem signed {signConsensusData : Bytes → Signature}
    (ht : Tracks { keys with signConsensusData := signConsensusData } s notices) :
    Tracks keys s notices :=
  ⟨ht.vote, ht.address, ht.sorted, ht.nodup⟩

theorem countsLatest_iff (ht : Tracks keys s notices) :
    CountsLatest keys s notices ↔ LatestLast keys notices := by
  constructor
  · intro hcounts address msg hlast
    have hvote := hcounts address
    have hmap := ht.vote address
    rw [hlast] at hmap
    obtain ⟨frm, hlookup, rfl⟩ := Option.map_eq_some_iff.mp hmap
    rwa [hlookup] at hvote
  · intro hlast address
    have hmap := ht.vote address
    cases hlookup : s.currentStates.lookup address with
    | none =>
        rw [hlookup] at hmap
        exact lastOf_eq_none_iff.mp hmap.symm
    | some frm =>
        rw [hlookup] at hmap
        exact hlast address frm.msg hmap.symm

/-- The voters for an upgrade are senders whose latest notice asks for it. -/
theorem exists_voters (ht : Tracks keys s notices) (hlast : LatestLast keys notices)
    (validators : List Bytes) (upgrade : Protocol.LedgerUpgrade) :
    ∃ voters : Finset Bytes, voters.card = (votersFor validators upgrade s.currentStates).length ∧
      ∀ voter ∈ voters, voter ∈ validators ∧
        ∃ msg, Latest keys notices voter msg ∧ msg.upgrade = upgrade := by
  have hsublist : (votersFor validators upgrade s.currentStates).Sublist s.currentStates :=
    List.filter_sublist
  have hnodup := ht.nodup.sublist (hsublist.map Prod.fst)
  refine ⟨((votersFor validators upgrade s.currentStates).map Prod.fst).toFinset, ?_, ?_⟩
  · rw [List.toFinset_card_of_nodup hnodup, List.length_map]
  · intro voter hvoter
    rw [List.mem_toFinset] at hvoter
    obtain ⟨⟨address, frm⟩, hmem, rfl⟩ := List.mem_map.mp hvoter
    obtain ⟨hstored, hvote⟩ := List.mem_filter.mp hmem
    obtain ⟨hvalidator, hupgrade⟩ := of_decide_eq_true hvote
    rw [ht.address _ hstored] at hvalidator
    have hlookup := (OrderedMap.lookup_eq_some_iff ht.nodup).mpr hstored
    have hmap := ht.vote address
    rw [hlookup] at hmap
    exact ⟨hvalidator, frm.msg, hlast address frm.msg hmap.symm, hupgrade⟩

/-- Who votes for what, as a map. -/
theorem map_votes (ht : Tracks keys s notices) :
    (s.currentStates.map fun entry => (entry.2.address, entry.2.msg.upgrade)) =
      s.currentStates.map fun entry => (entry.1, entry.2.msg.upgrade) :=
  List.map_congr_left fun entry hentry => by rw [ht.address entry hentry]

/-- The votes of two nodes that received the same notices, the latest last. -/
theorem getValid_eq (ht : Tracks keys s notices) (ht' : Tracks keys s' notices')
    (hlast : LatestLast keys notices) (hlast' : LatestLast keys notices')
    (hsame : ∀ msg, msg ∈ notices ↔ msg ∈ notices') (validators : List Bytes) (quorumSize : ℕ) :
    s.getValid validators quorumSize = s'.getValid validators quorumSize := by
  apply getValid_congr
  rw [ht.map_votes, ht'.map_votes]
  refine OrderedMap.ext_lookup ?_ ?_ ?_ ?_ fun address => ?_
  · exact ht.sorted.map _ fun _ _ hle => hle
  · exact ht'.sorted.map _ fun _ _ hle => hle
  · simpa [Function.comp_def] using ht.nodup
  · simpa [Function.comp_def] using ht'.nodup
  · have hvote := ht.vote address
    have hvote' := ht'.vote address
    rw [OrderedMap.lookup_map fun frm : LedgerUpgradeFrm => frm.msg.upgrade,
      OrderedMap.lookup_map fun frm : LedgerUpgradeFrm => frm.msg.upgrade]
    cases hlookup : s.currentStates.lookup address with
    | none =>
        rw [hlookup] at hvote
        have hnone := lastOf_eq_none_iff.mpr fun msg hmem =>
          lastOf_eq_none_iff.mp hvote.symm msg ((hsame msg).mpr hmem)
        rw [hnone] at hvote'
        rw [Option.map_eq_none_iff.mp hvote']
    | some frm =>
        rw [hlookup] at hvote
        have hlatest := hlast address frm.msg hvote.symm
        cases hlookup' : s'.currentStates.lookup address with
        | none =>
            rw [hlookup'] at hvote'
            exact absurd hlatest.2.1
              (lastOf_eq_none_iff.mp hvote'.symm frm.msg ((hsame _).mp hlatest.1))
        | some frm' =>
            rw [hlookup'] at hvote'
            have hlatest' := hlast' address frm'.msg hvote'.symm
            rw [Option.map_some, Option.map_some, hlatest.upgrade_eq hlatest' hsame]

end Tracks

/-- **When the votes are the newest notices.**  In a run in which no notice expires
the vote that is counted for each sender is its notice with the highest nonce exactly
when that notice came in last.  Then an upgrade is returned only if that many
validators ask for it in their latest notice, and another node, with keys of its own, that
received the same notices in such an order returns the same. -/
theorem upgradeVotes_latest_iff (keys : UpgradeKeys) {events : List Event}
    (hwindow : InWindow keys events) :
    let (s, notices) := run keys events
    (CountsLatest keys s notices ↔ LatestLast keys notices) ∧
      (LatestLast keys notices → ∀ validators quorumSize,
        (∀ upgrade, s.getValid validators quorumSize = some upgrade →
          ∃ voters : Finset Bytes, quorumSize ≤ voters.card ∧
            ∀ voter ∈ voters, voter ∈ validators ∧
              ∃ msg, Latest keys notices voter msg ∧ msg.upgrade = upgrade) ∧
        ∀ signConsensusData events',
          let keys' := { keys with signConsensusData := signConsensusData }
          InWindow keys' events' → (∀ msg, msg ∈ notices ↔ msg ∈ (run keys' events').2) →
          LatestLast keys' (run keys' events').2 →
          s.getValid validators quorumSize =
            (run keys' events').1.getValid validators quorumSize) := by
  have ht := tracks_run keys hwindow
  refine ⟨ht.countsLatest_iff, fun hlast validators quorumSize => ⟨?_, ?_⟩⟩
  · intro upgrade hvalid
    obtain ⟨voters, hcard, hvoters⟩ := ht.exists_voters hlast validators upgrade
    exact ⟨voters, hcard ▸ length_votersFor_of_getValid hvalid, hvoters⟩
  · intro signConsensusData events' keys' hwindow' hsame hlast'
    exact ht.getValid_eq (tracks_run keys' hwindow').signed hlast hlast' hsame validators quorumSize

/-! ## A notice that comes in late -/

/-- Keys under which a node signs with its name. -/
def sampleKeys : UpgradeKeys where
  verify _ signData publicKey := decide (signData = publicKey)
  getEncAddress := id
  signConsensusData _ := ⟨[1], [1]⟩
  selfChainId := 0

/-- The notice of a validator that asks for a version. -/
def sampleNotify (validator : UInt8) (nonce : ℤ) (version : Int64) : LedgerUpgradeNotify :=
  ⟨nonce, { newLedgerVersion := version }, ⟨[validator], [validator]⟩⟩

/-- A validator asks for one version and later for another. -/
def twoNotices (late : Bool) : List Event :=
  if late then [.recv 30 (sampleNotify 1 20 1004), .recv 40 (sampleNotify 1 10 1003)]
  else [.recv 30 (sampleNotify 1 10 1003), .recv 40 (sampleNotify 1 20 1004)]

theorem inWindow_twoNotices (late : Bool) : InWindow sampleKeys (twoNotices late) := by
  intro before event hinitial currentTime htime
  have hmem : event ∈ twoNotices late := hinitial.subset (by simp)
  have htimer : ∀ event ∈ twoNotices late, event.currentTime? = none := by
    cases late <;> simp [twoNotices, Event.currentTime?]
  rw [htimer event hmem] at htime
  cases htime

/-- In the order of the nonces the newer notice is the vote. -/
theorem upgradeVotes_latest_two :
    CountsLatest sampleKeys (run sampleKeys (twoNotices false)).1
        (run sampleKeys (twoNotices false)).2 ∧
      (run sampleKeys (twoNotices false)).1.getValid [[1]] 1 =
        some { newLedgerVersion := 1004 } := by
  refine ⟨(upgradeVotes_latest_iff sampleKeys (inWindow_twoNotices false)).1.mpr ?_, ?_⟩
  · intro address msg hlast
    obtain ⟨hmem, hsender⟩ := mem_of_lastOf sampleKeys hlast
    have hsenders : ∀ msg ∈ (run sampleKeys (twoNotices false)).2, sender sampleKeys msg = [1] := by
      decide +kernel
    obtain rfl : address = [1] := hsender.symm.trans (hsenders msg hmem)
    have hnewer : lastOf sampleKeys [1] (run sampleKeys (twoNotices false)).2 =
        some (sampleNotify 1 20 1004) := by decide +kernel
    obtain rfl := Option.some.inj (hlast.symm.trans hnewer)
    unfold Latest
    decide +kernel
  · decide +kernel

/-- In the other order the older notice is the vote. -/
theorem upgradeVotes_stale :
    InWindow sampleKeys (twoNotices true) ∧
      (∀ msg, msg ∈ (run sampleKeys (twoNotices true)).2 ↔
        msg ∈ (run sampleKeys (twoNotices false)).2) ∧
      ¬ CountsLatest sampleKeys (run sampleKeys (twoNotices true)).1
        (run sampleKeys (twoNotices true)).2 ∧
      (run sampleKeys (twoNotices true)).1.getValid [[1]] 1 = some { newLedgerVersion := 1003 } ∧
      (run sampleKeys (twoNotices false)).1.getValid [[1]] 1 =
        some { newLedgerVersion := 1004 } := by
  have hlate : (run sampleKeys (twoNotices true)).2 =
      [sampleNotify 1 20 1004, sampleNotify 1 10 1003] := by decide +kernel
  have hrest : (run sampleKeys (twoNotices false)).2 =
      [sampleNotify 1 10 1003, sampleNotify 1 20 1004] := by decide +kernel
  refine ⟨inWindow_twoNotices true, ?_, ?_, ?_, ?_⟩
  · intro msg
    rw [hlate, hrest, List.mem_pair, List.mem_pair, or_comm]
  · intro hcounts
    have hvote := hcounts [1]
    have hlookup : (run sampleKeys (twoNotices true)).1.currentStates.lookup [1] =
        some ⟨40, [1], sampleNotify 1 10 1003⟩ := by decide +kernel
    rw [hlookup, hlate] at hvote
    exact absurd (hvote.2.2 (sampleNotify 1 20 1004) (List.mem_cons_self ..) rfl)
      (by decide +kernel)
  · decide +kernel
  · decide +kernel

end LedgerUpgrade

end Glue

end CegChain
