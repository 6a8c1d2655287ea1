import CegChain.Lib.TimeIndex
import CegChain.Utils.Base58
import Mathlib.Data.Finset.Sort

/-!
# The broadcast

`overlay/broadcast.cpp`.  A node remembers the messages it has seen by their hashes, in
`records_`, with the peers that have each of them; `records_couple_` lists the hashes by
the time when the record was made, and `OnTimer` forgets from its front, first what is
older than an hour and then, beyond a million entries, half a million.

`records_couple_` has one hash for each reading of the clock.  Two records made at one
reading leave only the second listed, and the first is never forgotten
(`unlisted_immortal`).  Where that does not happen the two stay in step, and with at most
a million and a half young records before each `OnTimer` all that is expected of the
records holds (`records_kept_iff`).
-/

namespace CegChain

open Layers TimeIndex

namespace Broadcast

/-! ## The functions of the source -/

/-- `BroadcastRecord`. -/
structure BroadcastRecord where
  type : ℤ
  timeStamp : ℤ
  peers : Finset ℤ
  deriving DecidableEq

/-- A call of `SendRequest`. -/
structure Request where
  peer : ℤ
  type : ℤ
  data : Bytes
  deriving DecidableEq

/-- `Broadcast`. -/
structure State where
  /-- `records_`. -/
  records : Table Bytes BroadcastRecord := ∅
  /-- `records_couple_`. -/
  couple : List (ℤ × Bytes) := []

/-- `3600 * utils::MICRO_UNITS_PER_SEC`. -/
def leeway : ℤ := 3600 * 1000000

/-- `max_size`. -/
def maxSize : ℕ := 1000 * 1000

/-! The ids of the peers are gone through in their order. -/

local instance isTrans_peers : IsTrans ℤ (· ≤ ·) := inferInstance

local instance antisymm_peers : Std.Antisymm fun a b : ℤ => a ≤ b := inferInstance

local instance total_peers : Std.Total fun a b : ℤ => a ≤ b := inferInstance

section

variable (crypto : Bytes → Bytes)

/-- A new record is put into both maps. -/
def State.put (s : State) (hash : Bytes) (record : BroadcastRecord) : State where
  records := s.records.insert hash record
  couple := OrderedMap.insert record.timeStamp hash s.couple

/-- `Broadcast::Add`, at the reading `now` of the clock. -/
def add (now type : ℤ) (data : Bytes) (peerId : ℤ) (s : State) : Bool × State :=
  let hash := crypto data
  match s.records.lookup hash with
  | none => (true, s.put hash { type := type, timeStamp := now, peers := {peerId} })
  | some record =>
      (false, { s with
        records := s.records.insert hash { record with peers := insert peerId record.peers } })

/-- `Broadcast::IsQueued`. -/
def isQueued (data : Bytes) (s : State) : Bool :=
  (s.records.lookup (crypto data)).isSome

/-- The loop of `Send` over the active peers, for a record that is new. -/
def tellAll (type : ℤ) (data : Bytes) (active : List ℤ) (peers : Finset ℤ) :
    List Request × Finset ℤ :=
  active.foldl (fun s peer => (s.1 ++ [⟨peer, type, data⟩], insert peer s.2)) ([], peers)

/-- The loop of `Send` over the active peers, for a record that is there. -/
def tellOthers (type : ℤ) (data : Bytes) (active : List ℤ) (peersTold : Finset ℤ) :
    List Request × Finset ℤ :=
  active.foldl (fun s peer =>
    if peer ∈ s.2 then s else (s.1 ++ [⟨peer, type, data⟩], insert peer s.2)) ([], peersTold)

/-- `Broadcast::Send`, when `GetActivePeerIds` gives `active`. -/
def send (now type : ℤ) (data : Bytes) (active : Finset ℤ) (s : State) : List Request × State :=
  let hash := crypto data
  match s.records.lookup hash with
  | none =>
      let r := tellAll type data active.sort {0}
      (r.1, s.put hash { type := type, timeStamp := now, peers := r.2 })
  | some record =>
      let r := tellOthers type data active.sort record.peers
      (r.1, { s with records := s.records.insert hash { record with peers := r.2 } })

/-- The first loop of `OnTimer`. -/
def expireLoop (currentTime : ℤ) : List (ℤ × Bytes) → Table Bytes BroadcastRecord → State
  | [], records => { records := records }
  | entry :: couple, records =>
      if entry.1 + leeway < currentTime then
        expireLoop currentTime couple (records.erase entry.2)
      else { records := records, couple := entry :: couple }

/-- The second loop of `OnTimer`. -/
def shedLoop : ℕ → List (ℤ × Bytes) → Table Bytes BroadcastRecord → State
  | _, [], records => { records := records }
  | i, entry :: couple, records =>
      if i < maxSize / 2 then shedLoop (i + 1) couple (records.erase entry.2)
      else { records := records, couple := entry :: couple }

/-- `Broadcast::OnTimer`. -/
def onTimer (currentTime : ℤ) (s : State) : State :=
  let s := expireLoop currentTime s.couple s.records
  if s.couple.length > maxSize then shedLoop 0 s.couple s.records else s

/-! ## Runs -/

/-- A call, with the reading of the clock in it. -/
inductive Event where
  | add (now type : ℤ) (data : Bytes) (peerId : ℤ)
  | send (now type : ℤ) (data : Bytes) (active : Finset ℤ)
  | onTimer (now : ℤ)

/-- The reading of the clock. -/
def Event.now : Event → ℤ
  | .add now .. => now
  | .send now .. => now
  | .onTimer now => now

/-- The requests of a call and the state after it. -/
def step (s : State) : Event → List Request × State
  | .add now type data peerId => ([], (add crypto now type data peerId s).2)
  | .send now type data active => send crypto now type data active s
  | .onTimer now => ([], onTimer now s)

/-- The state after these calls. -/
def run (s : State) (events : List Event) : State :=
  events.foldl (fun s event => (step crypto s event).2) s

/-- The requests of these calls. -/
def requests : State → List Event → List Request
  | _, [] => []
  | s, event :: events => (step crypto s event).1 ++ requests (step crypto s event).2 events

/-- The peers to which a message with this hash was sent, in order. -/
def sentTo (hash : Bytes) (s : State) (events : List Event) : List ℤ :=
  ((requests crypto s events).filter fun request => crypto request.data = hash).map Request.peer

/-- The call makes a record, under this hash. -/
def Event.Creates (s : State) (hash : Bytes) : Event → Prop
  | .add _ _ data _ => crypto data = hash ∧ hash ∉ s.records
  | .send _ _ data _ => crypto data = hash ∧ hash ∉ s.records
  | .onTimer _ => False

/-- Two maps in step: each record's hash is listed under its own timestamp. -/
def State.InStep (s : State) : Prop :=
  TimeIndex.InStep BroadcastRecord.timeStamp s.records s.couple

/-- `GetRecordSize`. -/
def State.size (s : State) : ℕ :=
  s.records.keys.length

/-- How many listed records an `OnTimer` at `now` finds that are not older than an hour. -/
def State.young (s : State) (now : ℤ) : ℕ :=
  (s.couple.filter fun entry => ¬ entry.1 + leeway < now).length

/-- What is expected of the records in the states of a run. -/
structure Kept (events : List Event) : Prop where
  inStep : ∀ before, before <+: events → (run crypto {} before).InStep
  /-- An hour after it was first seen a message is forgotten. -/
  forgotten : ∀ before first during now hash,
    before ++ first :: during ++ [.onTimer now] <+: events →
    first.Creates crypto (run crypto {} before) hash → first.now + leeway < now →
    (∀ d, d <+: during → hash ∈ (run crypto {} (before ++ first :: d)).records) →
    hash ∉ (run crypto {} (before ++ first :: during ++ [.onTimer now])).records
  bounded : ∀ before now, before ++ [.onTimer now] <+: events →
    (run crypto {} (before ++ [.onTimer now])).size ≤ maxSize
  /-- While a message is remembered it is sent once to a peer, and not to one that
  delivered it. -/
  toldOnce : ∀ before during hash, before ++ during <+: events →
    (∀ d, d <+: during → d ≠ [] → d ≠ during →
      hash ∈ (run crypto {} (before ++ d)).records) →
    (sentTo crypto hash (run crypto {} before) during).Nodup ∧
      ∀ d now type data peerId d', during = d ++ .add now type data peerId :: d' →
        crypto data = hash →
        peerId ∉ sentTo crypto hash
          (run crypto {} (before ++ d ++ [.add now type data peerId])) d'

/-- No record is made at the timestamp of another, and an `OnTimer` finds at most a million
and a half that are not older than an hour. -/
structure Apart (events : List Event) : Prop where
  stamps : ∀ before event hash, before ++ [event] <+: events →
    event.Creates crypto (run crypto {} before) hash →
    ∀ other record, (run crypto {} before).records.lookup other = some record →
      record.timeStamp ≠ event.now
  room : ∀ before now, before ++ [.onTimer now] <+: events →
    (run crypto {} before).young now ≤ maxSize + maxSize / 2

/-! ## What a call does -/

/-- Requests for one hash, to peers that did not have the message and have it then. -/
structure Tells (hash : Bytes) (old new : Finset ℤ) (out : List Request) : Prop where
  hash : ∀ request ∈ out, crypto request.data = hash
  nodup : (out.map Request.peer).Nodup
  unheard : ∀ request ∈ out, request.peer ∉ old
  heard : ∀ request ∈ out, request.peer ∈ new
  grows : old ⊆ new

variable {crypto}

theorem Tells.nil {hash : Bytes} {old new : Finset ℤ} (hgrows : old ⊆ new) :
    Tells crypto hash old new [] where
  hash := by simp
  nodup := List.nodup_nil
  unheard := by simp
  heard := by simp
  grows := hgrows

theorem mem_tellAll (type : ℤ) (data : Bytes) (active : List ℤ)
    (s : List Request × Finset ℤ) :
    (active.foldl (fun s peer => (s.1 ++ [⟨peer, type, data⟩], insert peer s.2)) s).1 =
        s.1 ++ active.map (fun peer => ⟨peer, type, data⟩) ∧
      (active.foldl (fun s peer =>
        ((s.1 ++ [⟨peer, type, data⟩] : List Request), insert peer s.2)) s).2 =
          s.2 ∪ active.toFinset := by
  induction active generalizing s with
  | nil => simp
  | cons peer active ih =>
      obtain ⟨hout, hpeers⟩ := ih (s.1 ++ [⟨peer, type, data⟩], insert peer s.2)
      refine ⟨by rw [List.foldl_cons, hout]; simp, ?_⟩
      rw [List.foldl_cons, hpeers, List.toFinset_cons, Finset.insert_union, Finset.union_insert]

/-- A new record is told to every active peer. -/
theorem tells_tellAll (type : ℤ) (data : Bytes) {active : List ℤ} (hactive : active.Nodup)
    (peers : Finset ℤ) :
    Tells crypto (crypto data) ∅ (tellAll type data active peers).2
      (tellAll type data active peers).1 := by
  obtain ⟨hout, hpeers⟩ := mem_tellAll type data active ([], peers)
  have hmem : ∀ request ∈ (tellAll type data active peers).1,
      request.data = data ∧ request.peer ∈ active := by
    intro request hrequest
    rw [tellAll, hout, List.nil_append] at hrequest
    obtain ⟨peer, hpeer, rfl⟩ := List.mem_map.mp hrequest
    exact ⟨rfl, hpeer⟩
  refine ⟨fun request h => by rw [(hmem request h).1], ?_, by simp, ?_, Finset.empty_subset _⟩
  · rw [tellAll, hout, List.nil_append, List.map_map]
    simpa [Function.comp_def] using hactive
  · intro request h
    rw [tellAll, hpeers]
    exact Finset.mem_union_right _ (List.mem_toFinset.mpr (hmem request h).2)

/-- A record that is there is told to the peers that are not in it. -/
theorem tells_tellOthers (type : ℤ) (data : Bytes) (active : List ℤ) (peers : Finset ℤ) :
    Tells crypto (crypto data) peers (tellOthers type data active peers).2
      (tellOthers type data active peers).1 := by
  rw [tellOthers]
  refine List.foldlRecOn (motive := fun s : List Request × Finset ℤ =>
    Tells crypto (crypto data) peers s.2 s.1) active _ (Tells.nil (Finset.Subset.refl _)) ?_
  rintro ⟨out, told⟩ htells peer -
  dsimp only
  split_ifs with hpeer
  · exact htells
  · -- the peer is in neither, since the requests so far went to peers that are told
    refine ⟨?_, ?_, ?_, ?_, htells.grows.trans (Finset.subset_insert _ _)⟩
    · intro request h
      rcases List.mem_append.mp h with h | h
      · exact htells.hash request h
      · rw [List.mem_singleton.mp h]
    · rw [List.map_append, List.map_singleton, List.nodup_append_comm, List.singleton_append,
        List.nodup_cons]
      refine ⟨fun h => hpeer ?_, htells.nodup⟩
      obtain ⟨request, hrequest, rfl⟩ := List.mem_map.mp h
      exact htells.heard request hrequest
    · intro request h
      rcases List.mem_append.mp h with h | h
      · exact htells.unheard request h
      · rw [List.mem_singleton.mp h]
        exact fun hold => hpeer (htells.grows hold)
    · intro request h
      rcases List.mem_append.mp h with h | h
      · exact Finset.mem_insert_of_mem (htells.heard request h)
      · rw [List.mem_singleton.mp h]
        exact Finset.mem_insert_self _ _

theorem Event.Creates.not_mem {s : State} {event : Event} {hash : Bytes}
    (hcreates : event.Creates crypto s hash) : hash ∉ s.records := by
  cases event with
  | add => exact hcreates.2
  | send => exact hcreates.2
  | onTimer => exact hcreates.elim

theorem Event.Creates.unique {s : State} {event : Event} {hash hash' : Bytes}
    (hcreates : event.Creates crypto s hash) (hcreates' : event.Creates crypto s hash') :
    hash' = hash := by
  cases event with
  | add => exact hcreates'.1.symm.trans hcreates.1
  | send => exact hcreates'.1.symm.trans hcreates.1
  | onTimer => exact hcreates.elim

theorem not_mem_of_lookup_eq_none {s : State} {hash : Bytes}
    (hnone : s.records.lookup hash = none) : hash ∉ s.records :=
  AList.lookup_eq_none.mp hnone

variable (crypto) in
/-- A call makes a record, or adds peers to one that is there, or is a timer. -/
theorem step_cases (s : State) (event : Event) :
    (∃ hash record, event.Creates crypto s hash ∧ record.timeStamp = event.now ∧
        (step crypto s event).2 = s.put hash record ∧
        Tells crypto hash ∅ record.peers (step crypto s event).1) ∨
      (∃ hash record peers, s.records.lookup hash = some record ∧
        (step crypto s event).2 =
          { s with records := s.records.insert hash { record with peers := peers } } ∧
        Tells crypto hash record.peers peers (step crypto s event).1) ∨
      ∃ now, event = .onTimer now := by
  cases event with
  | add now type data peerId =>
      cases hlookup : s.records.lookup (crypto data) with
      | none =>
          refine .inl ⟨crypto data, ⟨type, now, {peerId}⟩, ⟨rfl, ?_⟩, rfl, ?_, ?_⟩
          · exact not_mem_of_lookup_eq_none hlookup
          · rw [step, add, hlookup]
          · exact Tells.nil (Finset.empty_subset _)
      | some record =>
          refine .inr (.inl ⟨crypto data, record, insert peerId record.peers, hlookup, ?_, ?_⟩)
          · rw [step, add, hlookup]
          · exact Tells.nil (Finset.subset_insert _ _)
  | send now type data active =>
      cases hlookup : s.records.lookup (crypto data) with
      | none =>
          refine .inl ⟨crypto data, ⟨type, now, (tellAll type data active.sort {0}).2⟩,
            ⟨rfl, not_mem_of_lookup_eq_none hlookup⟩, rfl, ?_, ?_⟩
          · rw [step, send, hlookup]
          · rw [step, send, hlookup]
            exact tells_tellAll type data (Finset.sort_nodup _ _) {0}
      | some record =>
          refine .inr (.inl ⟨crypto data, record,
            (tellOthers type data active.sort record.peers).2, hlookup, ?_, ?_⟩)
          · rw [step, send, hlookup]
          · rw [step, send, hlookup]
            exact tells_tellOthers type data _ _
  | onTimer now => exact .inr (.inr ⟨now, rfl⟩)

/-! ## The timer -/

/-- The index is in the order of the times, each of them once. -/
structure State.Ordered (s : State) : Prop where
  sorted : s.couple.Pairwise fun a b => a.1 ≤ b.1
  nodup : (s.couple.map Prod.fst).Nodup

/-- The entries that are older than an hour. -/
def old (now : ℤ) (entry : ℤ × Bytes) : Bool :=
  decide (entry.1 + leeway < now)

theorem old_iff {now : ℤ} {entry : ℤ × Bytes} :
    old now entry = true ↔ entry.1 + leeway < now :=
  decide_eq_true_iff

theorem expireLoop_eq (now : ℤ) (couple : List (ℤ × Bytes))
    (records : Table Bytes BroadcastRecord) :
    expireLoop now couple records =
      { records := eraseAll records (couple.takeWhile (old now))
        couple := couple.dropWhile (old now) } := by
  induction couple generalizing records with
  | nil => rfl
  | cons entry couple ih =>
      by_cases hold : entry.1 + leeway < now
      · rw [expireLoop, if_pos hold, ih, List.takeWhile_cons_of_pos (old_iff.mpr hold),
          List.dropWhile_cons_of_pos (old_iff.mpr hold)]
        rfl
      · rw [expireLoop, if_neg hold,
          List.takeWhile_cons_of_neg (by rwa [old_iff]),
          List.dropWhile_cons_of_neg (by rwa [old_iff])]
        rfl

theorem shedLoop_eq (i : ℕ) (couple : List (ℤ × Bytes))
    (records : Table Bytes BroadcastRecord) :
    shedLoop i couple records =
      { records := eraseAll records (couple.take (maxSize / 2 - i))
        couple := couple.drop (maxSize / 2 - i) } := by
  induction couple generalizing i records with
  | nil => simp [shedLoop, eraseAll]
  | cons entry couple ih =>
      by_cases hi : i < maxSize / 2
      · rw [shedLoop, if_pos hi, ih, show maxSize / 2 - i = maxSize / 2 - (i + 1) + 1 by omega]
        rfl
      · rw [shedLoop, if_neg hi, Nat.sub_eq_zero_of_le (not_lt.mp hi)]
        rfl

/-- What is not old at the front of an ordered index is all that is not old. -/
theorem dropWhile_old {couple : List (ℤ × Bytes)} (now : ℤ)
    (hsorted : couple.Pairwise fun a b => a.1 ≤ b.1) :
    couple.dropWhile (old now) = couple.filter fun entry => ¬ entry.1 + leeway < now := by
  induction couple with
  | nil => rfl
  | cons entry couple ih =>
      obtain ⟨hle, hsorted⟩ := List.pairwise_cons.mp hsorted
      by_cases hold : entry.1 + leeway < now
      · rw [List.dropWhile_cons_of_pos (old_iff.mpr hold), ih hsorted,
          List.filter_cons_of_neg (by simpa using hold)]
      · rw [List.dropWhile_cons_of_neg (by rwa [old_iff])]
        refine (List.filter_eq_self.mpr fun other hother => decide_eq_true ?_).symm
        rcases List.mem_cons.mp hother with rfl | hmem
        · exact hold
        · have := hle other hmem
          omega

/-- A timer erases from the front of the index. -/
theorem onTimer_erases (now : ℤ) (s : State) :
    ∃ gone, s.couple = gone ++ (onTimer now s).couple ∧
      (onTimer now s).records = eraseAll s.records gone := by
  rw [onTimer, expireLoop_eq]
  dsimp only
  split_ifs with hmany
  · rw [shedLoop_eq]
    refine ⟨s.couple.takeWhile (old now) ++
      (s.couple.dropWhile (old now)).take (maxSize / 2 - 0), ?_, ?_⟩
    · rw [List.append_assoc, List.take_append_drop, List.takeWhile_append_dropWhile]
    · rw [eraseAll, eraseAll, eraseAll, List.foldl_append]
  · exact ⟨s.couple.takeWhile (old now), List.takeWhile_append_dropWhile.symm, rfl⟩

theorem lookup_of_onTimer {now : ℤ} {s : State} {hash : Bytes} {record : BroadcastRecord}
    (hlookup : (onTimer now s).records.lookup hash = some record) :
    s.records.lookup hash = some record := by
  obtain ⟨gone, -, hrecords⟩ := onTimer_erases now s
  rw [hrecords] at hlookup
  exact (lookup_eraseAll_eq_some hlookup).1

/-- What a timer leaves is not old, and so much of it. -/
theorem onTimer_couple (now : ℤ) {s : State} (hordered : s.Ordered) :
    (∀ entry ∈ (onTimer now s).couple, ¬ entry.1 + leeway < now) ∧
      (onTimer now s).couple.length =
        if s.young now > maxSize then s.young now - maxSize / 2 else s.young now := by
  have hyoung : s.couple.dropWhile (old now) =
      s.couple.filter fun entry => ¬ entry.1 + leeway < now := dropWhile_old now hordered.sorted
  have hnot : ∀ entry ∈ s.couple.dropWhile (old now), ¬ entry.1 + leeway < now := by
    intro entry hentry
    rw [hyoung] at hentry
    simpa using (List.mem_filter.mp hentry).2
  have hlength : (s.couple.dropWhile (old now)).length = s.young now := by
    rw [hyoung, State.young]
  rw [onTimer, expireLoop_eq]
  dsimp only
  rw [hlength]
  split_ifs with hmany
  · rw [shedLoop_eq]
    refine ⟨fun entry hentry => hnot entry (List.mem_of_mem_drop hentry), ?_⟩
    rw [List.length_drop, hlength, Nat.sub_zero]
  · exact ⟨hnot, hlength⟩

theorem ordered_step {s : State} (hordered : s.Ordered) (event : Event) :
    (step crypto s event).2.Ordered := by
  rcases step_cases crypto s event with
    ⟨hash, record, -, -, hstep, -⟩ | ⟨hash, record, peers, -, hstep, -⟩ | ⟨now, rfl⟩
  · rw [hstep]
    exact ⟨OrderedMap.pairwise_insert _ _ hordered.sorted,
      OrderedMap.nodup_insert _ _ hordered.nodup⟩
  · rw [hstep]
    exact ⟨hordered.sorted, hordered.nodup⟩
  · obtain ⟨gone, hcouple, -⟩ := onTimer_erases now s
    have hsuffix : (onTimer now s).couple <:+ s.couple := ⟨gone, hcouple.symm⟩
    exact ⟨hordered.sorted.sublist hsuffix.sublist,
      hordered.nodup.sublist (hsuffix.sublist.map Prod.fst)⟩

theorem ordered_run (events : List Event) : (run crypto {} events).Ordered := by
  refine List.foldlRecOn (motive := State.Ordered) events _
    ⟨List.Pairwise.nil, List.nodup_nil⟩ fun s hordered event _ => ordered_step hordered event

/-! ## In step -/

/-- A call keeps the two in step when no record has the timestamp of the one it makes. -/
theorem inStep_step {s : State} (hinStep : s.InStep) (hordered : s.Ordered) {event : Event}
    (hfree : ∀ hash, event.Creates crypto s hash → ∀ other record,
      s.records.lookup other = some record → record.timeStamp ≠ event.now) :
    (step crypto s event).2.InStep := by
  rcases step_cases crypto s event with
    ⟨hash, record, hcreates, hnow, hstep, -⟩ | ⟨hash, record, peers, hlookup, hstep, -⟩ |
      ⟨now, rfl⟩
  · rw [hstep]
    refine TimeIndex.InStep.insert hinStep hcreates.not_mem fun htaken => ?_
    obtain ⟨⟨t, other⟩, hentry, ht⟩ := List.mem_map.mp htaken
    obtain ⟨record', hlookup, hstamp⟩ := hinStep.held hentry
    refine hfree hash hcreates other record' hlookup ?_
    rw [hstamp, ← hnow]
    exact ht
  · rw [hstep]
    exact TimeIndex.InStep.replace hinStep hlookup rfl
  · obtain ⟨gone, hcouple, hrecords⟩ := onTimer_erases now s
    change TimeIndex.InStep _ (onTimer now s).records (onTimer now s).couple
    rw [hrecords]
    refine TimeIndex.InStep.eraseAll ?_ ?_
    · rw [← hcouple]
      exact hinStep
    · rw [← hcouple]
      exact hordered.nodup

/-- A record that is made at the timestamp of another leaves the two out of step. -/
theorem not_inStep_step {s : State} {event : Event} {hash other : Bytes}
    {record : BroadcastRecord} (hcreates : event.Creates crypto s hash)
    (hlookup : s.records.lookup other = some record) (hstamp : record.timeStamp = event.now) :
    ¬ (step crypto s event).2.InStep := by
  have hnone : hash ∉ s.records → s.records.lookup hash = none := AList.lookup_eq_none.mpr
  cases event with
  | add now type data peerId =>
      obtain ⟨rfl, hmem⟩ := hcreates
      rw [step, add, hnone hmem]
      exact TimeIndex.InStep.not_insert_of_taken hmem hlookup hstamp
  | send now type data active =>
      obtain ⟨rfl, hmem⟩ := hcreates
      rw [step, send, hnone hmem]
      exact TimeIndex.InStep.not_insert_of_taken hmem hlookup hstamp
  | onTimer now => exact hcreates.elim

theorem run_append (s : State) (events events' : List Event) :
    run crypto s (events ++ events') = run crypto (run crypto s events) events' := by
  rw [run, List.foldl_append]
  rfl

theorem run_concat (s : State) (events : List Event) (event : Event) :
    run crypto s (events ++ [event]) = (step crypto (run crypto s events) event).2 := by
  rw [run_append]
  rfl

theorem inStep_run {events : List Event} (hapart : Apart crypto events) {before : List Event}
    (hbefore : before <+: events) : (run crypto {} before).InStep := by
  induction before using List.reverseRecOn with
  | nil => exact TimeIndex.InStep.empty
  | append_singleton before event ih =>
      rw [run_concat]
      refine inStep_step (ih ((List.prefix_append _ _).trans hbefore)) (ordered_run before) ?_
      intro hash hcreates
      exact hapart.stamps before event hash hbefore hcreates

/-- After a timer the records are as many as the listed ones that it leaves. -/
theorem size_onTimer {s : State} (hinStep : s.InStep) (hordered : s.Ordered) (now : ℤ) :
    (onTimer now s).size =
      if s.young now > maxSize then s.young now - maxSize / 2 else s.young now := by
  have hafter : (step id s (.onTimer now)).2.InStep :=
    inStep_step hinStep hordered fun _ hcreates => hcreates.elim
  have hordered' : (step id s (.onTimer now)).2.Ordered := ordered_step hordered _
  rw [← (onTimer_couple now hordered).2]
  exact TimeIndex.InStep.size_eq hafter hordered'.nodup

theorem size_onTimer_le_iff {s : State} (hinStep : s.InStep) (hordered : s.Ordered) (now : ℤ) :
    (onTimer now s).size ≤ maxSize ↔ s.young now ≤ maxSize + maxSize / 2 := by
  rw [size_onTimer hinStep hordered]
  have hmax : maxSize = 1000000 := rfl
  split_ifs with hmany <;> omega

/-! ## One record through a run -/

variable (crypto) in
/-- The requests of a call for a hash go to peers that its record has only then. -/
theorem heard_step {s : State} (event : Event) {hash : Bytes} {old : Finset ℤ}
    (hold : ∀ record, s.records.lookup hash = some record → old ⊆ record.peers)
    (hnone : hash ∉ s.records → old = ∅) :
    (sentTo crypto hash s [event]).Nodup ∧ (∀ p ∈ sentTo crypto hash s [event], p ∉ old) ∧
      ∀ record, (step crypto s event).2.records.lookup hash = some record →
        old ⊆ record.peers ∧ ∀ p ∈ sentTo crypto hash s [event], p ∈ record.peers := by
  have hsent : sentTo crypto hash s [event] =
      ((step crypto s event).1.filter fun request => crypto request.data = hash).map
        Request.peer := by
    rw [sentTo, requests, requests, List.append_nil]
  -- requests for another hash are none for this one
  have hother : ∀ {hash' old' new'}, hash' ≠ hash →
      Tells crypto hash' old' new' (step crypto s event).1 → sentTo crypto hash s [event] = [] := by
    intro hash' old' new' hne htells
    rw [hsent, List.map_eq_nil_iff, List.filter_eq_nil_iff]
    intro request hrequest
    rw [htells.hash request hrequest]
    simpa using hne
  have hsame : ∀ {old' new'}, Tells crypto hash old' new' (step crypto s event).1 →
      sentTo crypto hash s [event] = (step crypto s event).1.map Request.peer := by
    intro old' new' htells
    rw [hsent, List.filter_eq_self.mpr]
    intro request hrequest
    exact decide_eq_true (htells.hash request hrequest)
  rcases step_cases crypto s event with
    ⟨hash', record', hcreates, -, hstep, htells⟩ | ⟨hash', record', peers, hlookup, hstep, htells⟩ |
      ⟨now, rfl⟩
  · by_cases hhash : hash' = hash
    · subst hhash
      rw [hsame htells, hnone hcreates.not_mem]
      refine ⟨htells.nodup, by simp, fun record hrecord => ⟨Finset.empty_subset _, ?_⟩⟩
      rw [hstep, State.put, AList.lookup_insert, Option.some.injEq] at hrecord
      intro p hp
      obtain ⟨request, hrequest, rfl⟩ := List.mem_map.mp hp
      rw [← hrecord]
      exact htells.heard request hrequest
    · rw [hother hhash htells]
      refine ⟨List.nodup_nil, by simp, fun record hrecord => ⟨hold record ?_, by simp⟩⟩
      rwa [hstep, State.put, AList.lookup_insert_ne (Ne.symm hhash)] at hrecord
  · by_cases hhash : hash' = hash
    · subst hhash
      have hsubset := hold record' hlookup
      rw [hsame htells]
      refine ⟨htells.nodup, ?_, fun record hrecord => ?_⟩
      · intro p hp hpold
        obtain ⟨request, hrequest, rfl⟩ := List.mem_map.mp hp
        exact htells.unheard request hrequest (hsubset hpold)
      · rw [hstep, AList.lookup_insert, Option.some.injEq] at hrecord
        rw [← hrecord]
        refine ⟨hsubset.trans htells.grows, fun p hp => ?_⟩
        obtain ⟨request, hrequest, rfl⟩ := List.mem_map.mp hp
        exact htells.heard request hrequest
    · rw [hother hhash htells]
      refine ⟨List.nodup_nil, by simp, fun record hrecord => ⟨hold record ?_, by simp⟩⟩
      rwa [hstep, AList.lookup_insert_ne (Ne.symm hhash)] at hrecord
  · have hnil : sentTo crypto hash s [.onTimer now] = [] := rfl
    rw [hnil]
    refine ⟨List.nodup_nil, by simp, fun record hrecord => ⟨hold record ?_, by simp⟩⟩
    exact lookup_of_onTimer hrecord

theorem sentTo_cons (hash : Bytes) (s : State) (event : Event) (events : List Event) :
    sentTo crypto hash s (event :: events) =
      sentTo crypto hash s [event] ++ sentTo crypto hash (step crypto s event).2 events := by
  rw [sentTo, sentTo, sentTo, requests, requests, requests, List.append_nil,
    List.filter_append, List.map_append]

/-- While a hash is remembered its message is sent once to a peer, and not to those that
the record has already. -/
theorem nodup_sentTo {hash : Bytes} (events : List Event) {s : State} (old : Finset ℤ)
    (hold : ∀ record, s.records.lookup hash = some record → old ⊆ record.peers)
    (hnone : hash ∉ s.records → old = ∅)
    (hremembered : ∀ d, d <+: events → d ≠ [] → d ≠ events →
      hash ∈ (run crypto s d).records) :
    (sentTo crypto hash s events).Nodup ∧ ∀ p ∈ sentTo crypto hash s events, p ∉ old := by
  induction events generalizing s old with
  | nil => exact ⟨List.nodup_nil, fun p hp => absurd hp List.not_mem_nil⟩
  | cons event events ih =>
      obtain ⟨hnodup, hfresh, hheard⟩ := heard_step crypto event hold hnone
      rw [sentTo_cons]
      by_cases hlast : events = []
      · subst hlast
        have hnil : sentTo crypto hash (step crypto s event).2 [] = [] := rfl
        rw [hnil, List.append_nil]
        exact ⟨hnodup, hfresh⟩
      · have hmem : hash ∈ (step crypto s event).2.records :=
          hremembered [event] (List.prefix_append [event] events) (List.cons_ne_nil _ _)
            fun heq => hlast (List.cons.inj heq).2.symm
        -- from here on the requests so far are among the peers of the record
        obtain ⟨hrest, hnot⟩ := ih (old ∪ (sentTo crypto hash s [event]).toFinset)
          (fun record hlookup => Finset.union_subset (hheard record hlookup).1
            fun p hp => (hheard record hlookup).2 p (List.mem_toFinset.mp hp))
          (fun hnot => absurd hmem hnot)
          (fun d hd hne hproper => hremembered (event :: d) (List.cons_prefix_cons.mpr ⟨rfl, hd⟩)
            (List.cons_ne_nil _ _) fun heq => hproper (List.cons.inj heq).2)
        simp only [Finset.mem_union, List.mem_toFinset, not_or] at hnot
        refine ⟨hnodup.append hrest fun p hp hp' => (hnot p hp').2 hp, fun p hp => ?_⟩
        rcases List.mem_append.mp hp with hp | hp
        · exact hfresh p hp
        · exact (hnot p hp).1

variable (crypto) in
/-- After `Add` the message is remembered with the peer that delivered it. -/
theorem lookup_add (now type : ℤ) (data : Bytes) (peerId : ℤ) (s : State) :
    ∃ record, (add crypto now type data peerId s).2.records.lookup (crypto data) = some record ∧
      peerId ∈ record.peers := by
  cases hlookup : s.records.lookup (crypto data) with
  | none =>
      rw [add, hlookup]
      exact ⟨_, AList.lookup_insert _, Finset.mem_singleton_self _⟩
  | some record =>
      rw [add, hlookup]
      exact ⟨_, AList.lookup_insert _, Finset.mem_insert_self _ _⟩

/-- Whatever the readings, a message is sent once to a peer while it is remembered. -/
theorem toldOnce_run (before during : List Event) (hash : Bytes)
    (hremembered : ∀ d, d <+: during → d ≠ [] → d ≠ during →
      hash ∈ (run crypto {} (before ++ d)).records) :
    (sentTo crypto hash (run crypto {} before) during).Nodup ∧
      ∀ d now type data peerId d', during = d ++ .add now type data peerId :: d' →
        crypto data = hash →
        peerId ∉ sentTo crypto hash
          (run crypto {} (before ++ d ++ [.add now type data peerId])) d' := by
  constructor
  · refine (nodup_sentTo during ∅ (fun _ _ => Finset.empty_subset _) (fun _ => rfl)
      fun d hd hne hproper => ?_).1
    rw [← run_append]
    exact hremembered d hd hne hproper
  · rintro d now type data peerId d' rfl rfl hsent
    obtain ⟨record, hlookup, hpeer⟩ :=
      lookup_add crypto now type data peerId (run crypto {} (before ++ d))
    rw [run_concat] at hsent
    refine (nodup_sentTo d' {peerId} ?_ ?_ ?_).2 peerId hsent
      (Finset.mem_singleton_self _)
    · intro record' hlookup'
      rw [step, hlookup, Option.some.injEq] at hlookup'
      rw [← hlookup']
      exact Finset.singleton_subset_iff.mpr hpeer
    · intro hnot
      exact absurd (AList.lookup_isSome.mp (by rw [step, hlookup]; rfl)) hnot
    · intro d'' hd'' hne hproper
      rw [← run_concat, ← run_append, List.append_assoc, List.append_assoc]
      refine hremembered (d ++ ([.add now type data peerId] ++ d'')) ?_ (by simp) ?_
      · exact (List.prefix_append_right_inj d).mpr ((List.prefix_append_right_inj _).mpr hd'')
      · intro heq
        exact hproper (List.append_cancel_left (List.append_cancel_left heq))

/-- A record keeps its timestamp as long as its hash is remembered. -/
theorem timeStamp_step {s : State} {event : Event} {hash : Bytes} {record record' : BroadcastRecord}
    (hlookup : s.records.lookup hash = some record)
    (hlookup' : (step crypto s event).2.records.lookup hash = some record') :
    record'.timeStamp = record.timeStamp := by
  rcases step_cases crypto s event with
    ⟨hash', made, hcreates, -, hstep, -⟩ | ⟨hash', changed, peers, hchanged, hstep, -⟩ | ⟨now, rfl⟩
  · have hne : hash ≠ hash' := by
      rintro rfl
      exact hcreates.not_mem (AList.lookup_isSome.mp (by rw [hlookup]; rfl))
    rw [hstep, State.put, AList.lookup_insert_ne hne, hlookup, Option.some.injEq] at hlookup'
    rw [hlookup']
  · rw [hstep, lookup_insert_eq] at hlookup'
    split_ifs at hlookup' with hhash
    · subst hhash
      rw [hlookup, Option.some.injEq] at hchanged
      rw [← Option.some.inj hlookup', hchanged]
    · rw [hlookup, Option.some.injEq] at hlookup'
      rw [hlookup']
  · rw [lookup_of_onTimer hlookup', Option.some.injEq] at hlookup
    rw [hlookup]

/-- While it is remembered, a record has the reading of the call that made it. -/
theorem timeStamp_run {s : State} {first : Event} {hash : Bytes}
    (hcreates : first.Creates crypto s hash) (during : List Event)
    (hremembered : ∀ d, d <+: during → hash ∈ (run crypto s (first :: d)).records) :
    ∃ record, (run crypto s (first :: during)).records.lookup hash = some record ∧
      record.timeStamp = first.now := by
  induction during using List.reverseRecOn with
  | nil =>
      rcases step_cases crypto s first with
        ⟨hash', made, hcreates', hnow, hstep, -⟩ | ⟨hash', changed, peers, hchanged, hstep, -⟩ |
          ⟨now, rfl⟩
      · obtain rfl := hcreates.unique hcreates'
        refine ⟨made, ?_, hnow⟩
        change (step crypto s first).2.records.lookup hash' = some made
        rw [hstep]
        exact AList.lookup_insert _
      · -- a call that makes a record does not find one
        have hhash : hash' = hash := by
          have hafter : hash ∈ (step crypto s first).2.records := hremembered [] List.nil_prefix
          rw [hstep, AList.mem_insert] at hafter
          exact (hafter.resolve_right hcreates.not_mem).symm
        subst hhash
        exact (hcreates.not_mem (AList.lookup_isSome.mp (by rw [hchanged]; rfl))).elim
      · exact hcreates.elim
  | append_singleton during event ih =>
      obtain ⟨record, hlookup, hstamp⟩ := ih fun d hd =>
        hremembered d (hd.trans (List.prefix_append _ _))
      have hmem := hremembered _ (List.prefix_refl (during ++ [event]))
      rw [← List.cons_append, run_concat] at hmem ⊢
      obtain ⟨record', hlookup'⟩ := Option.isSome_iff_exists.mp (AList.lookup_isSome.mpr hmem)
      exact ⟨record', hlookup', (timeStamp_step hlookup hlookup').trans hstamp⟩

/-! ## What is kept -/

/-- **A record that is not listed is never forgotten.** -/
theorem unlisted_immortal {s : State} {hash : Bytes} (hmem : hash ∈ s.records)
    (hunlisted : hash ∉ s.couple.map Prod.snd) (events : List Event) :
    hash ∈ (run crypto s events).records ∧ hash ∉ (run crypto s events).couple.map Prod.snd := by
  refine List.foldlRecOn
    (motive := fun s : State => hash ∈ s.records ∧ hash ∉ s.couple.map Prod.snd) events _
    ⟨hmem, hunlisted⟩ ?_
  rintro s ⟨hmem, hunlisted⟩ event -
  rcases step_cases crypto s event with
    ⟨hash', made, hcreates, -, hstep, -⟩ | ⟨hash', changed, peers, -, hstep, -⟩ | ⟨now, rfl⟩
  · rw [hstep]
    refine ⟨(AList.mem_insert _).mpr (.inr hmem), fun hlisted => ?_⟩
    obtain ⟨⟨t, other⟩, hentry, rfl⟩ := List.mem_map.mp hlisted
    rcases OrderedMap.mem_insert.mp hentry with heq | ⟨hentry, -⟩
    · obtain rfl : other = hash' := congrArg Prod.snd heq
      exact hcreates.not_mem hmem
    · exact hunlisted (List.mem_map_of_mem (f := Prod.snd) hentry)
  · rw [hstep]
    exact ⟨(AList.mem_insert _).mpr (.inr hmem), hunlisted⟩
  · obtain ⟨gone, hcouple, hrecords⟩ := onTimer_erases now s
    rw [hcouple, List.map_append, List.mem_append, not_or] at hunlisted
    refine ⟨?_, hunlisted.2⟩
    change hash ∈ (onTimer now s).records
    rw [hrecords, ← AList.lookup_isSome, lookup_eraseAll_of_not_mem hunlisted.1]
    exact AList.lookup_isSome.mpr hmem

/-- **The records are kept exactly when no two are made at one reading of the clock and no
timer finds too many.** -/
theorem records_kept_iff (crypto : Bytes → Bytes) (events : List Event) :
    Kept crypto events ↔ Apart crypto events := by
  constructor
  · intro hkept
    refine ⟨?_, ?_⟩
    · intro before event hash hbefore hcreates other record hlookup hstamp
      have hafter := hkept.inStep _ hbefore
      rw [run_concat] at hafter
      exact not_inStep_step hcreates hlookup hstamp hafter
    · intro before now hbefore
      have hinStep := hkept.inStep before ((List.prefix_append _ _).trans hbefore)
      have hbounded := hkept.bounded before now hbefore
      rw [run_concat] at hbounded
      exact (size_onTimer_le_iff hinStep (ordered_run before) now).mp hbounded
  · intro hapart
    refine ⟨fun before hbefore => inStep_run hapart hbefore, ?_, ?_, ?_⟩
    · intro before first during now hash hbefore hcreates hlate hremembered hmem
      have hinStep := inStep_run hapart hbefore
      obtain ⟨record, hlookup, hstamp⟩ := timeStamp_run hcreates during fun d hd => by
        rw [← run_append]
        exact hremembered d hd
      rw [run_concat] at hmem hinStep
      rw [← run_append] at hlookup
      obtain ⟨record', hlookup'⟩ := Option.isSome_iff_exists.mp (AList.lookup_isSome.mpr hmem)
      have hlisted := TimeIndex.InStep.listed hinStep hlookup'
      rw [timeStamp_step hlookup hlookup', hstamp] at hlisted
      exact (onTimer_couple now (ordered_run _)).1 _ hlisted hlate
    · intro before now hbefore
      have hinStep := inStep_run hapart ((List.prefix_append _ _).trans hbefore)
      rw [run_concat]
      exact (size_onTimer_le_iff hinStep (ordered_run before) now).mpr
        (hapart.room before now hbefore)
    · intro before during hash _ hremembered
      exact toldOnce_run before during hash hremembered

/-- Two messages that come in within one microsecond. -/
def twoAtOnce : List Event := [.add 5 0 [97] 1, .add 5 0 [98] 2]

/-- The first of them is remembered for ever, and the two maps are out of step. -/
theorem first_of_twoAtOnce_immortal :
    (∀ later, [97] ∈ (run id {} (twoAtOnce ++ later)).records) ∧
      ¬ Kept id (twoAtOnce ++ [.onTimer (6 + leeway)]) := by
  have himmortal : ∀ later, [97] ∈ (run id {} (twoAtOnce ++ later)).records := by
    intro later
    rw [run_append]
    refine (unlisted_immortal ?_ ?_ later).1
    · exact AList.lookup_isSome.mp rfl
    · decide
  refine ⟨himmortal, fun hkept => ?_⟩
  refine hkept.forgotten [] (.add 5 0 [97] 1) [.add 5 0 [98] 2] (6 + leeway) [97]
    (List.prefix_refl _) ⟨rfl, AList.notMem_empty _⟩ (by decide) ?_ (himmortal _)
  intro d hd
  rcases List.prefix_cons_iff.mp hd with rfl | ⟨d', rfl, hd'⟩
  · exact AList.lookup_isSome.mp rfl
  · obtain rfl := List.prefix_nil.mp hd'
    exact AList.lookup_isSome.mp rfl

end

end Broadcast

end CegChain
