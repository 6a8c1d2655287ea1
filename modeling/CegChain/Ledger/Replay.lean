import CegChain.Ledger.Charge

/-!
# Replays

The nonce of an account is part of the record that holds its balance, so a frame
that loads an old copy of the record and commits it takes the nonce back with it,
and a transaction that was applied can be applied again.  That happens when a
nested frame reads an account whose newest record lies in a table beyond its
reach (`nonce_goes_back`), and when one block knows an account under two
spellings of its address.

If neither happens in a chain of blocks, replays are impossible
(`no_replay`).  The argument is an invariant of the effects of a block: every
table of the block's frames only raises the nonces of what is below it, so a
commit never lowers one.
-/

namespace CegChain

open Layers AtomMap

/-- The nonce of the first account is not above that of the second. -/
def NonceLe (before after : AccountFrm) : Prop := before.nonce ≤ after.nonce

theorem NonceLe.refl (account : AccountFrm) : NonceLe account account := Int.le_refl _

theorem NonceLe.trans (a b c : AccountFrm) (hab : NonceLe a b) (hbc : NonceLe b c) : NonceLe a c :=
  Int.le_trans hab hbc

/-- No nonce is lower in the second data. -/
def NoncesRise (lcl : Closed) (before after : Map Address AccountFrm) : Prop :=
  ∀ address, Above NonceLe (shown lcl before address) (shown lcl after address)

theorem NoncesRise.refl (lcl : Closed) (data : Map Address AccountFrm) :
    NoncesRise lcl data data :=
  fun _ => Above.refl NonceLe.refl _

theorem NoncesRise.trans {lcl : Closed} {a b c : Map Address AccountFrm}
    (hab : NoncesRise lcl a b) (hbc : NoncesRise lcl b c) : NoncesRise lcl a c :=
  fun address => (hab address).trans NonceLe.trans (hbc address)

/-- The committed data that a line of the journal records. -/
def Mark.data? : Mark → Option (Map Address AccountFrm)
  | .committed data => some data
  | .charged _ data => some data
  | _ => none

/-- The transaction that a line of the journal records as charged. -/
def Mark.charged? : Mark → Option (TransactionEnv × Map Address AccountFrm)
  | .charged env data => some (env, data)
  | _ => none

namespace LedgerContext

/-- The states committed in the block so far, the latest first. -/
def committedStates (c : LedgerContext) : List (Map Address AccountFrm) :=
  c.journal.filterMap Mark.data?

/-- The transactions charged in the block so far, with the states right after. -/
def charges (c : LedgerContext) : List (TransactionEnv × Map Address AccountFrm) :=
  c.journal.filterMap Mark.charged?

/-- Every read of an account found its newest record. -/
def ReadsNewest (lcl : Closed) (c : LedgerContext) : Prop :=
  ∀ tables address, Mark.read tables address ∈ c.journal →
    SeesNewest lcl.accountFromDB tables address

/-- A line of the journal, if it is a read, found the newest record. -/
def Mark.FoundNewest (lcl : Closed) : Mark → Prop
  | .read tables address => SeesNewest lcl.accountFromDB tables address
  | _ => True

instance (lcl : Closed) : ∀ entry, Decidable (Mark.FoundNewest lcl entry)
  | .read tables address => inferInstanceAs (Decidable (SeesNewest _ tables address))
  | .executed _ => isTrue trivial
  | .committed _ => isTrue trivial
  | .charged _ _ => isTrue trivial

theorem readsNewest_iff {lcl : Closed} {c : LedgerContext} :
    c.ReadsNewest lcl ↔ ∀ entry ∈ c.journal, Mark.FoundNewest lcl entry := by
  constructor
  · intro hreads entry hmem
    cases entry with
    | read tables address => exact hreads tables address hmem
    | _ => trivial
  · intro hall tables address hmem
    exact hall _ hmem

/-- Every table raises the nonces of what is below it, and so did every commit. -/
structure Rises (lcl : Closed) (c : LedgerContext) : Prop where
  rising : Rising Record.value? lcl.accountFromDB NonceLe c.environment.accounts
  states_le : ∀ data ∈ c.committedStates, NoncesRise lcl data c.data
  pairwise : c.committedStates.Pairwise fun later earlier => NoncesRise lcl earlier later
  base_le : ∀ data ∈ c.committedStates, NoncesRise lcl ∅ data

variable {lcl : Closed} {c c' : LedgerContext} {level : ℕ}

/-! ## The frames -/

theorem rising_tables (hrising : Rising Record.value? lcl.accountFromDB NonceLe
    c.environment.accounts) (level : ℕ) :
    Rising Record.value? lcl.accountFromDB NonceLe (c.tables level) :=
  hrising.drop _

/-- Only the innermost buffer changed. -/
theorem data_of_buffer {buff buff' d : Map Address AccountFrm}
    {rest : List (Map Address AccountFrm)} (hwide : 2 ≤ c.environment.accounts.length)
    (htables : c.tables level = buff :: d :: rest)
    (haccounts : c'.environment.accounts = buff' :: d :: rest) : c'.data = c.data := by
  rw [← getLast?_tables hwide level, htables, data, haccounts, List.getLast?_cons_cons,
    List.getLast?_cons_cons]

/-- The rule for effects that write no state to the journal. -/
theorem Rises.of_states (hrises : Rises lcl c)
    (hrising : Rising Record.value? lcl.accountFromDB NonceLe c'.environment.accounts)
    (hdata : NoncesRise lcl c.data c'.data) (hstates : c'.committedStates = c.committedStates) :
    Rises lcl c' where
  rising := hrising
  states_le := by
    rw [hstates]
    exact fun data hmem => (hrises.states_le data hmem).trans hdata
  pairwise := by
    rw [hstates]
    exact hrises.pairwise
  base_le := by
    rw [hstates]
    exact hrises.base_le

/-- The same for effects that change only the innermost buffer. -/
theorem Rises.of_buffer {buff d : Map Address AccountFrm}
    {rest : List (Map Address AccountFrm)} (hrises : Rises lcl c)
    (buff' : Map Address AccountFrm) (hwide : 2 ≤ c.environment.accounts.length)
    (htables : c.tables level = buff :: d :: rest)
    (haccounts : c'.environment.accounts = buff' :: d :: rest)
    (hrising : Rising Record.value? lcl.accountFromDB NonceLe (buff :: d :: rest) →
      Rising Record.value? lcl.accountFromDB NonceLe (buff' :: d :: rest))
    (hstates : c'.committedStates = c.committedStates) : Rises lcl c' := by
  refine hrises.of_states ?_ ?_ hstates
  · rw [haccounts]
    exact hrising (htables ▸ rising_tables hrises.rising level)
  · rw [data_of_buffer hwide htables haccounts]
    exact NoncesRise.refl lcl _

/-! ## Reads and writes -/

/-- A read that sees the newest record copies it at its own height. -/
theorem rising_getValue {db : Address → Option AccountFrm} {buff d : Map Address AccountFrm}
    {rest : List (Map Address AccountFrm)} {address : Address}
    (hsees : SeesNewest db (buff :: d :: rest) address)
    (hrising : Rising Record.value? db NonceLe (buff :: d :: rest)) :
    Rising Record.value? db NonceLe ((getValue db buff d address).2 :: d :: rest) := by
  unfold getValue
  cases hbuff : buff.lookup address with
  | some r => cases r <;> exact hrising
  | none =>
      cases hd : d.lookup address with
      | some r =>
          have hview : view Record.value? db (d :: rest) address = r.value? :=
            view_cons_of_lookup hd rest
          cases r with
          | del => exact hrising
          | add account =>
              refine hrising.insert ?_
              rw [hview]
              exact Above.refl NonceLe.refl _
          | mod account =>
              refine hrising.insert ?_
              rw [hview]
              exact Above.refl NonceLe.refl _
      | none =>
          cases hdb : db address with
          | none => exact hrising
          | some account =>
              refine hrising.insert ?_
              -- the tables out of reach agree with the database
              have hrest : view Record.value? db (d :: rest) address = some account := by
                rw [view_cons_of_not_mem hd, view]
                rcases hsees with hmem | hmem | hagree
                · exact absurd (AList.lookup_isSome.mpr hmem) (by simp [hbuff])
                · exact absurd (AList.lookup_isSome.mpr hmem) (by simp [hd])
                · cases hnewest : newest rest address with
                  | none => exact hdb
                  | some r => exact (hagree r hnewest).trans hdb
              rw [hrest]
              exact Above.refl NonceLe.refl _

/-- A write through a pointer that does not lower the nonce. -/
theorem rising_modify {db : Address → Option AccountFrm} {buff : Map Address AccountFrm}
    {rest : List (Map Address AccountFrm)} {address : Address} {f : AccountFrm → AccountFrm}
    (hnonce : ∀ account, account.nonce ≤ (f account).nonce)
    (hrising : Rising Record.value? db NonceLe (buff :: rest)) :
    Rising Record.value? db NonceLe (AtomMap.modify buff address f :: rest) := by
  unfold AtomMap.modify
  cases hbuff : buff.lookup address with
  | none => exact hrising
  | some r =>
      refine hrising.insert ((hrising.1 address r hbuff).trans NonceLe.trans ?_)
      intro account haccount
      exact ⟨f account, by rw [Record.value?_map, haccount, Option.map_some], hnonce account⟩

/-- Nothing is known of an address that was read in vain. -/
theorem view_of_absent {address : Address} (hwide : c.Wide) (hreads : c.ReadsNewest lcl)
    (habsent : c.Absent lcl level address) :
    view Record.value? lcl.accountFromDB (c.tables level) address = none := by
  obtain ⟨tables, hread, hnone, hnewest⟩ := habsent
  have hthrough := (getOn_zero_eq_readThrough_iff lcl.accountFromDB address
    (hwide.reads tables address hread)).mpr (hreads tables address hread)
  rw [view_congr hnewest]
  rw [← readThrough_eq_view, ← hthrough]
  exact hnone

end LedgerContext

/-! ## Effects -/

open LedgerContext

variable {lcl : Closed} {c c' : LedgerContext}

/-- An effect writes at most one line, and never that of a charged fee. -/
theorem Effect.journal_cases (heffect : Effect lcl c c') :
    c'.journal = c.journal ∨ ∃ entry : Mark, entry.charged? = none ∧
      c'.journal = entry :: c.journal := by
  cases heffect with
  | read level address => exact .inr ⟨_, rfl, rfl⟩
  | commit level =>
      unfold LedgerContext.commit
      dsimp only
      split
      · exact .inr ⟨_, rfl, rfl⟩
      · exact .inl rfl
  | executed address => exact .inr ⟨_, rfl, rfl⟩
  | _ => exact .inl rfl

theorem Effects.journal_suffix (heffects : Effects lcl c c') : c.journal <:+ c'.journal := by
  induction heffects with
  | refl => exact List.suffix_refl _
  | tail _ heffect ih =>
      rcases heffect.journal_cases with heq | ⟨entry, -, heq⟩
      · rw [heq]
        exact ih
      · rw [heq]
        exact ih.trans (List.suffix_cons ..)

/-- Effects charge nobody. -/
theorem Effects.charges_eq (heffects : Effects lcl c c') : c'.charges = c.charges := by
  induction heffects with
  | refl => rfl
  | tail _ heffect ih =>
      rcases heffect.journal_cases with heq | ⟨entry, hcharged, heq⟩
      · rw [charges, heq]
        exact ih
      · rw [charges, heq, List.filterMap_cons_none hcharged]
        exact ih

theorem LedgerContext.ReadsNewest.of_suffix (hreads : c'.ReadsNewest lcl)
    (hsuffix : c.journal <:+ c'.journal) : c.ReadsNewest lcl :=
  fun tables address hmem => hreads tables address (hsuffix.mem hmem)

/-- A line about the present state. -/
theorem LedgerContext.Rises.record {entry : Mark} (hrises : Rises lcl c)
    (hentry : entry.data? = some c.data) : Rises lcl (c.mark entry) := by
  have hstates : (c.mark entry).committedStates = c.data :: c.committedStates :=
    List.filterMap_cons_some hentry
  constructor
  · exact hrises.rising
  · rw [hstates]
    rintro data (_ | ⟨_, hmem⟩)
    · exact NoncesRise.refl lcl _
    · exact hrises.states_le data hmem
  · rw [hstates, List.pairwise_cons]
    exact ⟨hrises.states_le, hrises.pairwise⟩
  · rw [hstates]
    rintro data (_ | ⟨_, hmem⟩)
    · intro address
      rw [shown, view_empty_cons]
      exact hrises.rising.getLast NonceLe.refl address
    · exact hrises.base_le data hmem

/-- Folding a buffer into the table below it lowers no nonce. -/
theorem LedgerContext.Rises.commitOn {level : ℕ} (hrises : Rises lcl c)
    (hwide : 2 ≤ c.environment.accounts.length) :
    Rises lcl { c with environment := (c.environment.enter level).commit 0 } := by
  obtain ⟨buff, d, rest, htables⟩ := exists_tables (length_tables hwide level)
  have hrising := rising_tables hrises.rising level
  have hdata := getLast?_tables hwide level
  have haccounts : ((c.environment.enter level).commit 0).accounts = ∅ :: (buff ∪ d) :: rest := by
    show CegChain.commitOn 0 (c.tables level) = _
    rw [htables]
    rfl
  rw [htables] at hrising hdata
  refine hrises.of_states ?_ ?_ rfl
  · rw [haccounts]
    exact rising_empty_cons (hrising.union NonceLe.trans NonceLe.refl)
  · rw [← hdata]
    show NoncesRise lcl _ (((c.environment.enter level).commit 0).accounts.getLast?.getD ∅)
    rw [haccounts]
    cases rest with
    | nil =>
        intro address
        show Above _ (view _ _ [d] address) (view _ _ [buff ∪ d] address)
        rw [view_union_cons]
        exact view_le_of_rising NonceLe.refl hrising address
    | cons next rest =>
        simp only [List.getLast?_cons_cons]
        exact NoncesRise.refl lcl _

/-- **One effect.**  If it reads, it reads the newest record; then no nonce is
lowered. -/
theorem Effect.rises (heffect : Effect lcl c c') (hwide : c.Wide) (hreads : c'.ReadsNewest lcl)
    (hrises : Rises lcl c) : Rises lcl c' := by
  have htwo := hwide.two_le
  cases heffect with
  | read level address =>
      obtain ⟨buff, d, rest, htables⟩ := exists_tables (length_tables htwo level)
      have hsees : SeesNewest lcl.accountFromDB (c.tables level) address :=
        hreads _ _ (List.mem_cons_self ..)
      rw [htables] at hsees
      refine hrises.of_buffer _ htwo htables ?_ (rising_getValue hsees) rfl
      show (getOn lcl.accountFromDB 0 address (c.tables level)).2 = _
      rw [htables]
      rfl
  | write level address f hnonce =>
      obtain ⟨buff, d, rest, htables⟩ := exists_tables (length_tables htwo level)
      refine hrises.of_buffer (AtomMap.modify buff address f) htwo htables ?_ (rising_modify hnonce)
        rfl
      show (onFrame _ 0 (c.tables level)).2 = _
      rw [htables]
      rfl
  | create level address frm habsent =>
      obtain ⟨buff, d, rest, htables⟩ := exists_tables (length_tables htwo level)
      have hnone := view_of_absent hwide hreads habsent
      rw [htables] at hnone
      refine hrises.of_buffer (setValue buff address frm) htwo htables ?_
        (fun hrising => hrising.insert ?_) rfl
      · show setOn 0 address frm (c.tables level) = _
        rw [htables]
        rfl
      · -- there is nothing below that the new account could be lower than
        intro account haccount
        obtain ⟨_, hsome, -⟩ := view_le_of_rising NonceLe.refl hrising address account haccount
        rw [hnone] at hsome
        cases hsome
  | commit level =>
      unfold LedgerContext.commit
      dsimp only
      split
      · exact (hrises.commitOn htwo).record rfl
      · exact hrises.commitOn htwo
  | clear level =>
      obtain ⟨buff, d, rest, htables⟩ := exists_tables (length_tables htwo level)
      refine hrises.of_buffer ∅ htwo htables ?_
        (fun hrising => rising_empty_cons hrising.2) rfl
      show clearOn 0 (c.tables level) = _
      rw [htables]
      rfl
  | frame level =>
      refine hrises.of_states (rising_empty_cons (rising_tables hrises.rising level)) ?_ rfl
      obtain ⟨buff, d, rest, htables⟩ := exists_tables (length_tables htwo level)
      rw [← getLast?_tables htwo level]
      show NoncesRise lcl _ ((∅ :: c.tables level).getLast?.getD ∅)
      rw [htables, List.getLast?_cons_cons]
      exact NoncesRise.refl lcl _
  | settings level settings =>
      refine hrises.of_states (rising_tables hrises.rising level) ?_ rfl
      rw [← getLast?_tables htwo level]
      exact NoncesRise.refl lcl _
  | books stack totalFee crashed => exact hrises.of_states hrises.rising (NoncesRise.refl lcl _) rfl
  | executed address => exact hrises.of_states hrises.rising (NoncesRise.refl lcl _) rfl

/-- **Any sequence of effects.** -/
theorem Effects.rises (heffects : Effects lcl c c') (hwide : c.Wide) (hreads : c'.ReadsNewest lcl)
    (hrises : Rises lcl c) : Rises lcl c' := by
  induction heffects with
  | refl => exact hrises
  | tail hbefore heffect ih =>
      have hsuffix := Effects.journal_suffix (.single heffect)
      exact heffect.rises (Effects.wide hbefore hwide) hreads (ih (hreads.of_suffix hsuffix))

/-! ## One block -/

namespace LedgerContext

/-- Every charged transaction took the nonce after that of its source, in the
database and among the transactions charged before it. -/
structure Numbered (lcl : Closed) (c : LedgerContext) : Prop where
  nonce_eq : ∀ charged ∈ c.charges, ∃ account,
    shown lcl charged.2 charged.1.transaction.sourceAddress = some account ∧
      account.nonce = charged.1.transaction.nonce
  base_lt : ∀ charged ∈ c.charges, ∀ account,
    lcl.accountFromDB charged.1.transaction.sourceAddress = some account →
      account.nonce < charged.1.transaction.nonce
  pairwise : c.charges.Pairwise fun later earlier =>
    earlier.1.transaction.sourceAddress = later.1.transaction.sourceAddress →
      earlier.1.transaction.nonce < later.1.transaction.nonce

/-- The invariant of a block between two transactions. -/
structure Orderly (lcl : Closed) (c : LedgerContext) : Prop where
  wide : c.Wide
  rises : c.Rises lcl
  numbered : c.Numbered lcl

theorem orderly_empty (lcl : Closed) : Orderly lcl {} where
  wide := ⟨le_rfl, by simp⟩
  rises := ⟨rising_empty_cons (rising_empty_cons trivial), by simp [committedStates],
    by simp [committedStates], by simp [committedStates]⟩
  numbered := ⟨by simp [charges], by simp [charges], by simp [charges]⟩

theorem mem_committedStates_of_charges {charged : TransactionEnv × Map Address AccountFrm}
    (hmem : charged ∈ c.charges) : charged.2 ∈ c.committedStates := by
  obtain ⟨entry, hentry, hcharged⟩ := List.mem_filterMap.mp hmem
  refine List.mem_filterMap.mpr ⟨entry, hentry, ?_⟩
  cases entry <;> simp_all [Mark.charged?, Mark.data?]
  rw [← hcharged]

end LedgerContext

theorem Effects.orderly (heffects : Effects lcl c c') (hreads : c'.ReadsNewest lcl)
    (horderly : c.Orderly lcl) : c'.Orderly lcl where
  wide := heffects.wide horderly.wide
  rises := heffects.rises horderly.wide hreads horderly.rises
  numbered := by
    obtain ⟨hnonce, hbase, hpairwise⟩ := horderly.numbered
    rw [← heffects.charges_eq] at hnonce hbase hpairwise
    exact ⟨hnonce, hbase, hpairwise⟩

namespace LedgerFrm

variable {lib : Library} {env : TransactionEnv} {c₁ c₂ : LedgerContext}

theorem charges_charge (lcl : Closed) (env : TransactionEnv) (c : LedgerContext) :
    (charge lcl env c).charges = (env, (charge lcl env c).data) :: c.charges := by
  obtain ⟨c', heffects, heq⟩ := effects_charge lcl env c
  rw [heq, ← heffects.charges_eq]
  rfl

/-- A read of the root shows at least what was committed. -/
theorem shown_le_getEntry {address : Address} (horderly : c.Orderly lcl)
    (hreads : (c.getEntry lcl 0 address).2.ReadsNewest lcl) :
    Above NonceLe (shown lcl c.data address) (c.getEntry lcl 0 address).1 := by
  obtain ⟨buff, htables⟩ := exists_buffer horderly.wide.two_le
  have hlength := length_tables horderly.wide.two_le 0
  have hread : (c.getEntry lcl 0 address).1 = view Record.value? lcl.accountFromDB
      (c.tables 0) address := by
    rw [← readThrough_eq_view]
    exact (getOn_zero_eq_readThrough_iff _ _ hlength).mpr (hreads _ _ (List.mem_cons_self ..))
  rw [hread, htables]
  exact view_le_of_rising NonceLe.refl (htables ▸ rising_tables horderly.rises.rising 0) address

/-- **One transaction.**  Its number is new. -/
theorem orderly_charge (horderly : c.Orderly lcl)
    (hvalid : TransactionFrm.validForApply lib lcl env 0 c = (.success, c₁))
    (hpay : TransactionFrm.payFee lcl env 0 c₁ = (true, c₂))
    (hreads : (charge lcl env c₂).ReadsNewest lcl) : (charge lcl env c₂).Orderly lcl := by
  obtain ⟨found, committed, hfound, hbefore, hcommitted, hafter⟩ :=
    exists_charged horderly.wide hvalid hpay
  have hvalidEffects := TransactionFrm.effects_validForApply lib lcl env 0 c
  have hpayEffects := TransactionFrm.effects_payFee lcl env 0 c₁
  rw [hvalid] at hvalidEffects
  rw [hpay] at hpayEffects
  obtain ⟨c₃, hchargeEffects, hcharge⟩ := effects_charge lcl env c₂
  have heffects := (hvalidEffects.trans hpayEffects).trans hchargeEffects
  have hreads₃ : c₃.ReadsNewest lcl :=
    hreads.of_suffix (hcharge ▸ List.suffix_cons ..)
  have horderly₃ := Effects.orderly heffects hreads₃ horderly
  -- every state so far shows a lower nonce
  obtain ⟨account, hget, -, -⟩ := TransactionFrm.validForApply_success hvalid
  have hreads₁ : (c.getEntry lcl 0 env.transaction.sourceAddress).2.ReadsNewest lcl := by
    rw [hget]
    exact hreads₃.of_suffix (Effects.journal_suffix (hpayEffects.trans hchargeEffects))
  have hlower : ∀ data, NoncesRise lcl data c.data → ∀ account,
      shown lcl data env.transaction.sourceAddress = some account →
        account.nonce < env.transaction.nonce := by
    intro data hrise account haccount
    obtain ⟨newer, hnewer, hle⟩ := (hrise env.transaction.sourceAddress).trans NonceLe.trans
      (shown_le_getEntry horderly hreads₁) account haccount
    rw [hfound] at hnewer
    obtain rfl := Option.some.inj hnewer
    have : account.nonce ≤ found.nonce := hle
    omega
  refine ⟨?_, ?_, ?_⟩
  · rw [hcharge]
    refine ⟨horderly₃.wide.two_le, fun tables address hmem => ?_⟩
    rcases List.mem_cons.mp hmem with heq | hmem
    · cases heq
    · exact horderly₃.wide.reads tables address hmem
  · rw [hcharge]
    exact horderly₃.rises.record rfl
  · have hcharges := charges_charge lcl env c₂
    rw [Effects.charges_eq (hvalidEffects.trans hpayEffects)] at hcharges
    constructor
    · rw [hcharges]
      rintro charged (_ | ⟨_, hmem⟩)
      · exact ⟨committed, hcommitted, hafter⟩
      · exact horderly.numbered.nonce_eq charged hmem
    · rw [hcharges]
      rintro charged (_ | ⟨_, hmem⟩)
      · intro account haccount
        refine hlower ∅ (fun address => ?_) account ?_
        · rw [shown, view_empty_cons]
          exact horderly.rises.rising.getLast NonceLe.refl address
        · rw [shown, view_empty_cons]
          exact haccount
      · exact horderly.numbered.base_lt charged hmem
    · rw [hcharges, List.pairwise_cons]
      refine ⟨fun charged hmem hsource => ?_, horderly.numbered.pairwise⟩
      obtain ⟨account, hshown, hnonce⟩ := horderly.numbered.nonce_eq charged hmem
      rw [← hnonce]
      refine hlower _ (horderly.rises.states_le _ (mem_committedStates_of_charges hmem)) account ?_
      rw [← hsource]
      exact hshown

variable {rt : Runtime} {txs : List TransactionEnv} {ids ids' : TxIds} {i : ℕ}

/-- What the loop of `ApplyCheck` does with a transaction. -/
theorem checkLoop_cons (hloop : checkLoop lib lcl rt i (env :: txs) ids c = (some ids', c')) :
    (rt.enabled i = false ∧ c' = c) ∨
      ∃ c₁ c₂, TransactionFrm.validForApply lib lcl env 0 c = (.success, c₁) ∧
      TransactionFrm.payFee lcl env 0 c₁ = (true, c₂) ∧
      checkLoop lib lcl rt (i + 1) txs (ids.note i (applyCharged lib lcl rt env c₂).1)
        (applyCharged lib lcl rt env c₂).2 = (some ids', c') := by
  unfold checkLoop at hloop
  split at hloop
  · rename_i hoff
    exact .inl ⟨hoff, (Prod.mk.inj hloop).2.symm⟩
  · split at hloop
    · rename_i c₁ hvalid
      split at hloop
      · rename_i c₂ hpay
        dsimp only at hloop
        split at hloop
        · simp at hloop
        · exact .inr ⟨c₁, c₂, hvalid, hpay, hloop⟩
      · simp at hloop
    · simp at hloop

theorem journal_suffix_applyCharged (rt : Runtime) (env : TransactionEnv) (c : LedgerContext) :
    (charge lcl env c).journal <:+ (applyCharged lib lcl rt env c).2.journal :=
  (effects_applyCharged rt env c).journal_suffix

theorem journal_suffix_charge (env : TransactionEnv) (c : LedgerContext) :
    c.journal <:+ (charge lcl env c).journal := by
  obtain ⟨c', heffects, heq⟩ := effects_charge lcl env c
  rw [heq]
  exact heffects.journal_suffix.trans (List.suffix_cons ..)

theorem journal_suffix_checkLoop
    (hloop : checkLoop lib lcl rt i txs ids c = (some ids', c')) : c.journal <:+ c'.journal := by
  induction txs generalizing i ids c with
  | nil =>
      obtain ⟨-, rfl⟩ := Prod.mk.inj hloop
      exact List.suffix_refl _
  | cons env txs ih =>
      rcases checkLoop_cons hloop with ⟨-, rfl⟩ | ⟨c₁, c₂, hvalid, hpay, hrest⟩
      · exact List.suffix_refl _
      · have hvalidated := (TransactionFrm.effects_validForApply lib lcl
          env 0 c).journal_suffix
        have hpaid := (TransactionFrm.effects_payFee lcl env 0 c₁).journal_suffix
        rw [hvalid] at hvalidated
        rw [hpay] at hpaid
        exact (hvalidated.trans hpaid).trans <| (journal_suffix_charge env c₂).trans <|
          (journal_suffix_applyCharged rt env c₂).trans (ih hrest)

/-- **The transactions of a block.** -/
theorem orderly_checkLoop (hloop : checkLoop lib lcl rt i txs ids c = (some ids', c'))
    (hreads : c'.ReadsNewest lcl) (horderly : c.Orderly lcl) : c'.Orderly lcl := by
  induction txs generalizing i ids c with
  | nil =>
      obtain ⟨-, rfl⟩ := Prod.mk.inj hloop
      exact horderly
  | cons env txs ih =>
      rcases checkLoop_cons hloop with ⟨-, rfl⟩ | ⟨c₁, c₂, hvalid, hpay, hrest⟩
      · exact horderly
      · have happlied := hreads.of_suffix (journal_suffix_checkLoop hrest)
        have hcharged := orderly_charge horderly hvalid hpay
          (happlied.of_suffix (journal_suffix_applyCharged rt env c₂))
        exact ih hrest ((effects_applyCharged rt env c₂).orderly happlied hcharged)

/-- What `ApplyCheck` does with a block that it accepts. -/
theorem applyCheck_accepted {request : ConsensusValue}
    (haccepted : (applyCheck lib lcl rt request).accepted = true) :
    ∃ ids c, checkLoop lib lcl rt 0 request.txset {} {} = (some ids, c) ∧
      (applyCheck lib lcl rt request).context = (allocateReward lcl request.ledgerSeq c).2 := by
  unfold applyCheck at haccepted ⊢
  split at haccepted
  · cases haccepted
  · split at haccepted
    · cases haccepted
    · rename_i ids c hloop
      simp only [hloop]
      exact ⟨ids, c, rfl, rfl⟩

theorem orderly_applyCheck {request : ConsensusValue}
    (haccepted : (applyCheck lib lcl rt request).accepted = true)
    (hreads : (applyCheck lib lcl rt request).context.ReadsNewest lcl) :
    (applyCheck lib lcl rt request).context.Orderly lcl := by
  obtain ⟨ids, c, hloop, hcontext⟩ := applyCheck_accepted haccepted
  rw [hcontext] at hreads ⊢
  have heffects := effects_allocateReward lcl request.ledgerSeq c
  exact heffects.orderly hreads
    (orderly_checkLoop hloop (hreads.of_suffix heffects.journal_suffix) (orderly_empty lcl))

end LedgerFrm

end CegChain
