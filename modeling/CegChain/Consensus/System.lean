import CegChain.Consensus.Buffers
import CegChain.Consensus.EnterView

/-!
# The replicas together

The honest validators run the replica of `Replica`, each on its own events; the network
and the faulty validators decide which messages arrive, when and how often.  They cannot
sign for others: every validly signed envelope of an honest validator, also one that is
carried inside another message, is something that this validator has signed before
(`System.Admits`).

`System.runs?` decides for a run whether it is possible, as far as the envelopes in
envelopes go only one level down.
-/

namespace CegChain

/-! ## Signing -/

/-- The envelopes directly inside an envelope. -/
def PbftEnv.embedded (env : PbftEnv) : List PbftEnv :=
  let raw := env.pbft.viewChangeWithRawvalue
  let newView := env.pbft.newView
  raw.viewChangeEnv?.toList ++ raw.preparedSet.prePrepare?.toList ++ raw.preparedSet.prepare ++
    newView.viewChanges ++ newView.prePrepare?.toList

/-- The envelope carries another one, at any depth; it carries itself. -/
def PbftEnv.Carries : PbftEnv → PbftEnv → Prop :=
  Relation.ReflTransGen fun env inner => inner ∈ env.embedded

/-- The replica has signed the message: it has sent it, or sent it as the view change inside
another one. -/
def PbftState.Signed (st : PbftState) (pbft : Pbft) : Prop :=
  ∃ env, .send env ∈ st.outputs ∧
    (env.pbft = pbft ∨ env.pbft.viewChangeWithRawvalue.viewChangeEnv.pbft = pbft)

/-- The replica has signed a COMMIT for a digest at a sequence. -/
def PbftState.SignedCommit (st : PbftState) (sequence : ℤ) (digest : Bytes) : Prop :=
  ∃ pbft, st.Signed pbft ∧ pbft.type = .commit ∧ pbft.commit.sequence = sequence ∧
    pbft.commit.valueDigest = digest

/-! ## Systems -/

/-- Validators with their keys, not too many of them faulty. -/
structure System (crypto : Crypto) where
  validators : List Bytes
  nodup : validators.Nodup
  four_le : 4 ≤ validators.length
  key : Bytes → PrivateKey
  address_key : ∀ a ∈ validators, crypto.encAddress (key a).encPublicKey = a
  faulty : Finset Bytes
  card_faulty : faulty.card ≤ faultNumber validators.length

namespace System

variable {crypto : Crypto} (sys : System crypto)

/-- The validators that follow the program. -/
def Honest (a : Bytes) : Prop :=
  a ∈ sys.validators ∧ a ∉ sys.faulty

instance (a : Bytes) : Decidable (sys.Honest a) :=
  inferInstanceAs (Decidable (_ ∧ _))

/-- Every replica has just been told the validators. -/
def start (a : Bytes) : PbftState :=
  initialState crypto (sys.key a) sys.validators

/-- One event at one replica. -/
def next (states : Bytes → PbftState) (move : Bytes × Event) : Bytes → PbftState :=
  Function.update states move.1 (step crypto (sys.key move.1) (states move.1) move.2)

/-- A run of all the replicas. -/
def run (moves : List (Bytes × Event)) : Bytes → PbftState :=
  moves.foldl sys.next sys.start

/-- An event that can happen: at an honest replica, with the same validators, and without
forged signatures. -/
structure Admits (states : Bytes → PbftState) (move : Bytes × Event) : Prop where
  honest : sys.Honest move.1
  keeps : move.2.KeepsValidators sys.validators
  authentic : ∀ env checkValue now, move.2 = .recv env checkValue now →
    ∀ inner, env.Carries inner →
      Authentic crypto (fun a pbft => sys.Honest a → (states a).Signed pbft) inner

/-- Every event of the run can happen and meets `good` in the state of its replica. -/
def Runs (good : Event → PbftState → Prop) (moves : List (Bytes × Event)) : Prop :=
  ∀ before move after, moves = before ++ move :: after →
    sys.Admits (sys.run before) move ∧ good move.2 (sys.run before move.1)

variable {sys}

@[simp] theorem run_concat (moves : List (Bytes × Event)) (move : Bytes × Event) :
    sys.run (moves ++ [move]) = sys.next (sys.run moves) move :=
  List.foldl_concat ..

/-- The events of one replica. -/
def eventsOf (a : Bytes) (moves : List (Bytes × Event)) : List Event :=
  (moves.filter fun move => move.1 = a).map Prod.snd

theorem eventsOf_concat (a : Bytes) (moves : List (Bytes × Event)) (move : Bytes × Event) :
    eventsOf a (moves ++ [move]) =
      if move.1 = a then eventsOf a moves ++ [move.2] else eventsOf a moves := by
  unfold eventsOf
  rw [List.filter_append, List.map_append, List.filter_singleton]
  split <;> simp_all

/-- In a run of all, every replica makes a run of its own. -/
theorem run_eq (moves : List (Bytes × Event)) (a : Bytes) :
    sys.run moves a = CegChain.run crypto (sys.key a) sys.validators (eventsOf a moves) := by
  induction moves using List.reverseRecOn with
  | nil => rfl
  | append_singleton moves move ih =>
      rw [run_concat, next, eventsOf_concat]
      split
      · rename_i hmover
        subst hmover
        rw [Function.update_self, ih]
        simp [CegChain.run]
      · rename_i hmover
        rw [Function.update_of_ne (Ne.symm hmover), ih]

/-- What holds at first and is kept by every event holds after a run. -/
theorem Runs.invariant {good : Event → PbftState → Prop} {inv : (Bytes → PbftState) → Prop}
    {moves : List (Bytes × Event)} (hruns : sys.Runs good moves) (hstart : inv sys.start)
    (hnext : ∀ states move, sys.Admits states move → good move.2 (states move.1) → inv states →
      inv (sys.next states move)) :
    inv (sys.run moves) := by
  induction moves using List.reverseRecOn with
  | nil => exact hstart
  | append_singleton moves move ih =>
      obtain ⟨hadmits, hgood⟩ := hruns moves move [] rfl
      rw [run_concat]
      refine hnext _ move hadmits hgood (ih fun before other after hsplit => ?_)
      exact hruns before other (after ++ [move]) (by simp [hsplit])

/-- What every event of a run meets, the events of one replica meet. -/
theorem Runs.runMeets {good : Event → PbftState → Prop} {moves : List (Bytes × Event)}
    (hruns : sys.Runs good moves) (a : Bytes) :
    RunMeets good crypto (sys.key a) sys.validators (eventsOf a moves) := by
  induction moves using List.reverseRecOn with
  | nil => simp [RunMeets, eventsOf]
  | append_singleton moves move ih =>
      have hearlier : sys.Runs good moves := fun before other after hsplit =>
        hruns before other (after ++ [move]) (by simp [hsplit])
      obtain ⟨hadmits, hgood⟩ := hruns moves move [] rfl
      rw [eventsOf_concat]
      split
      · rename_i hmover
        subst hmover
        exact (ih hearlier).concat hadmits.keeps (run_eq moves move.1 ▸ hgood)
      · exact ih hearlier

end System

/-! ## Deciding -/

/-- Compare two messages without envelopes in them. -/
def Pbft.flatEq (p q : Pbft) : Bool :=
  p.newView?.isNone && q.newView?.isNone &&
    p.viewChangeWithRawvalue?.isNone && q.viewChangeWithRawvalue?.isNone &&
    decide (p.roundNumber = q.roundNumber ∧ p.type = q.type ∧ p.prePrepare? = q.prePrepare? ∧
      p.prepare? = q.prepare? ∧ p.commit? = q.commit? ∧ p.viewChange? = q.viewChange? ∧
      p.chainId = q.chainId)

theorem Pbft.eq_of_flatEq {p q : Pbft} (hflat : p.flatEq q = true) : p = q := by
  obtain ⟨round, type, prePrepare?, prepare?, commit?, viewChange?, newView?, raw?, chain⟩ := p
  obtain ⟨round', type', prePrepare?', prepare?', commit?', viewChange?', newView?', raw?',
    chain'⟩ := q
  simp only [Pbft.flatEq, Bool.and_eq_true, Option.isNone_iff_eq_none, decide_eq_true_eq] at hflat
  obtain ⟨⟨⟨⟨rfl, rfl⟩, rfl⟩, rfl⟩, rfl, rfl, rfl, rfl, rfl, rfl, rfl⟩ := hflat
  rfl

/-- Whether the replica has signed the message. -/
def PbftState.signed? (pbft : Pbft) (st : PbftState) : Bool :=
  st.outputs.any fun
    | .send env => env.pbft.flatEq pbft ||
        env.pbft.viewChangeWithRawvalue.viewChangeEnv.pbft.flatEq pbft
    | _ => false

theorem PbftState.signed_of_signed? {pbft : Pbft} {st : PbftState}
    (hsigned : st.signed? pbft = true) : st.Signed pbft := by
  obtain ⟨output, houtput, hmatch⟩ := List.any_eq_true.mp hsigned
  cases output with
  | send env =>
      rcases (Bool.or_eq_true _ _).mp hmatch with hflat | hflat
      · exact ⟨env, houtput, Or.inl (Pbft.eq_of_flatEq hflat)⟩
      · exact ⟨env, houtput, Or.inr (Pbft.eq_of_flatEq hflat)⟩
  | _ => exact absurd hmatch Bool.false_ne_true

namespace System

variable {crypto : Crypto} (sys : System crypto)

/-- Whether the signature of the envelope is no forgery. -/
def authentic? (states : Bytes → PbftState) (env : PbftEnv) : Bool :=
  !crypto.verify env.pbft env.signature.signData env.signature.publicKey ||
    !decide (sys.Honest (env.address crypto)) || (states (env.address crypto)).signed? env.pbft

/-- Whether the event can happen.  The envelopes in the message must not carry others. -/
def admits? (states : Bytes → PbftState) (move : Bytes × Event) : Bool :=
  decide (sys.Honest move.1) &&
    match move.2 with
    | .recv env _ _ => sys.authentic? states env &&
        env.embedded.all fun inner => inner.embedded.isEmpty && sys.authentic? states inner
    | .updateValidators validators _ => decide (validators = sys.validators)
    | _ => true

/-- Whether a run that goes on from the given states can happen and its events meet `good`. -/
def runs? (good : Event → PbftState → Bool) :
    (Bytes → PbftState) → List (Bytes × Event) → Bool
  | _, [] => true
  | states, move :: moves =>
      sys.admits? states move && good move.2 (states move.1) &&
        runs? good (sys.next states move) moves

variable {sys}

theorem authentic_of_authentic? {states : Bytes → PbftState} {env : PbftEnv}
    (hauthentic : sys.authentic? states env = true) :
    Authentic crypto (fun a pbft => sys.Honest a → (states a).Signed pbft) env := by
  intro hverify hhonest
  simp only [authentic?, hverify, hhonest, decide_true, Bool.not_true, Bool.or_self,
    Bool.false_or] at hauthentic
  exact PbftState.signed_of_signed? hauthentic

/-- Below the first level there is nothing. -/
theorem carries_of_embedded {env inner : PbftEnv}
    (hembedded : ∀ inner ∈ env.embedded, inner.embedded = []) (hcarries : env.Carries inner) :
    inner = env ∨ inner ∈ env.embedded := by
  induction hcarries with
  | refl => exact Or.inl rfl
  | tail _ hinner ih =>
      rcases ih with rfl | hmid
      · exact Or.inr hinner
      · rw [hembedded _ hmid] at hinner
        exact absurd hinner List.not_mem_nil

theorem admits_of_admits? {states : Bytes → PbftState} {move : Bytes × Event}
    (hadmits : sys.admits? states move = true) : sys.Admits states move := by
  obtain ⟨a, event⟩ := move
  rw [admits?, Bool.and_eq_true, decide_eq_true_eq] at hadmits
  obtain ⟨hhonest, hevent⟩ := hadmits
  refine ⟨hhonest, ?_, ?_⟩
  · cases event with
    | updateValidators validators proof =>
        have heq : validators = sys.validators := of_decide_eq_true hevent
        exact heq
    | _ => trivial
  · rintro env checkValue now rfl inner hcarries
    simp only [Bool.and_eq_true, List.all_eq_true, List.isEmpty_iff] at hevent
    rcases carries_of_embedded (fun other hother => (hevent.2 other hother).1) hcarries with
      rfl | hinner
    · exact authentic_of_authentic? hevent.1
    · exact authentic_of_authentic? (hevent.2 inner hinner).2

theorem runs_of_runs? {good : Event → PbftState → Prop} (good? : Event → PbftState → Bool)
    (hgood : ∀ event st, good? event st = true → good event st) {moves : List (Bytes × Event)}
    (hruns : sys.runs? good? sys.start moves = true) : sys.Runs good moves := by
  unfold Runs run
  generalize sys.start = states at hruns ⊢
  induction moves generalizing states with
  | nil => simp
  | cons first moves ih =>
      rw [runs?, Bool.and_eq_true, Bool.and_eq_true] at hruns
      obtain ⟨⟨hadmits, hfirst⟩, hrest⟩ := hruns
      intro before move after hsplit
      cases before with
      | nil =>
          obtain ⟨rfl, -⟩ := List.cons.inj hsplit
          exact ⟨admits_of_admits? hadmits, hgood _ _ hfirst⟩
      | cons other before =>
          obtain ⟨rfl, hsplit'⟩ := List.cons.inj hsplit
          exact ih _ hrest before move after hsplit'

end System

/-! ## A system of four validators -/

namespace Sample

/-- The sample chain with one faulty validator. -/
def system (faulty : Bytes) : System Sample.crypto where
  validators := validators
  nodup := by decide
  four_le := by decide
  key a := ⟨a, fun _ => a⟩
  address_key _ _ := rfl
  faulty := {faulty}
  card_faulty := (Finset.card_singleton faulty).le

/-- The hash of the sample chain. -/
theorem hash_injective : Function.Injective Sample.crypto.hash := fun _ _ heq =>
  (List.cons.inj heq).2

theorem hash_ne_nil (value : Bytes) : Sample.crypto.hash value ≠ [] :=
  List.cons_ne_nil _ _

/-- The PRE-PREPARE of a validator for a value at sequence 2. -/
def proposal (signer : UInt8) (viewNumber : ℤ) (value : Bytes) : PbftEnv :=
  sign signer { (default : Pbft) with
    roundNumber := 1
    type := .preprepare
    prePrepare? := some ⟨viewNumber, 2, signer.toNat, value, 1 :: value⟩ }

/-- The PREPARE of a validator for a value at sequence 2. -/
def prepareFor (signer : UInt8) (viewNumber : ℤ) (value : Bytes) : PbftEnv :=
  sign signer { (default : Pbft) with
    roundNumber := 1
    type := .prepare
    prepare? := some ⟨viewNumber, 2, signer.toNat, 1 :: value⟩ }

/-- The COMMIT of a validator for a value at sequence 2. -/
def commitFor (signer : UInt8) (viewNumber : ℤ) (value : Bytes) : PbftEnv :=
  sign signer { (default : Pbft) with
    roundNumber := 1
    type := .commit
    commit? := some ⟨viewNumber, 2, signer.toNat, 1 :: value⟩ }

/-- A message arrives at the validator with the given index. -/
def deliver (receiver : UInt8) (env : PbftEnv) : Bytes × Event :=
  ([10 + receiver], .recv env .valid 0)

/-- Whether a value has been executed. -/
def executed (value : Bytes) (st : PbftState) : Bool :=
  st.outputs.any fun
    | .valueCommited sequence value' _ => sequence == 2 && value' == value
    | _ => false

theorem exists_of_executed {value : Bytes} {st : PbftState} (hexecuted : executed value st = true) :
    ∃ proof, .valueCommited 2 value proof ∈ st.outputs := by
  obtain ⟨output, houtput, hmatch⟩ := List.any_eq_true.mp hexecuted
  cases output with
  | valueCommited sequence value' proof =>
      simp only [Bool.and_eq_true, beq_iff_eq] at hmatch
      obtain ⟨rfl, rfl⟩ := hmatch
      exact ⟨proof, houtput⟩
  | _ => exact absurd hmatch Bool.false_ne_true

end Sample

end CegChain
