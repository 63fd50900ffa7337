import Bdns.Blockchain.Independence

/-!
# Validation beside a run with one more COMMIT

Two validations run side by side. They differ in the ledger and in the pending commits only,
and the second may have seen one COMMIT more. What the shadow maps hold after an accepted
transaction is a function of the transaction, so the two shadows stay together
[`Ahead.step`, `Ahead.foldlM`] but for what the additional COMMIT writes [`Ahead.insert`]: its
hash, and the nonce and balance of the key that signed it. A COMMIT or a REVEAL of another
key and another hash that passes in the first validation then passes in the second
[`Ahead.passes`].
-/

namespace Bdns.Blockchain

open Lib Index

namespace Validation

/-! ## The shadows after a transaction as functions of it -/

/-- The prices known after a transaction. -/
def salesAfter (tx : Transaction) (forSale : Bytes → Option UInt64) : Bytes → Option UInt64 :=
  match tx.type with
  | .list => Function.update forSale tx.domainName (some tx.listPrice)
  | .delist | .buy | .transfer => Function.update forSale tx.domainName (some 0)
  | _ => forSale

section After

variable {V : Validation} {tx : Transaction}

theorem DomainGate.forSale_eq {sh : DomainShadow} {owner : Bytes → Option Bytes}
    {forSale : Bytes → Option UInt64} {commit : Bytes → Bool}
    (h : DomainGate V sh tx owner forSale commit) : forSale = salesAfter tx sh.forSale := by
  unfold salesAfter
  cases h with
  | change hType => rcases hType with hType | hType <;> rw [hType]
  | other hType =>
    rcases hType with hType | hType | hType | hType | ⟨code, hCode, hType⟩ <;> rw [hType]
  | commit hType | reveal hType | autoRevoke hType | renew hType | list hType | delist hType
  | buy hType | transfer hType => rw [hType]

/-- The commits used after a transaction are those before it and its own. -/
theorem DomainGate.commit_iff {sh : DomainShadow} {owner : Bytes → Option Bytes}
    {forSale : Bytes → Option UInt64} {commit : Bytes → Bool}
    (h : DomainGate V sh tx owner forSale commit) (key : Bytes) :
    commit key = true ↔ sh.commit key = true ∨ key ∈ commitKeys V.E tx := by
  unfold commitKeys
  cases h with
  | commit hType =>
    rw [if_pos hType, Function.update_apply, List.mem_singleton]
    split <;> simp_all
  | reveal hType =>
    rw [if_neg (by simp [hType]), if_pos hType, Function.update_apply, List.mem_singleton]
    split <;> simp_all
  | change hType => rcases hType with hType | hType <;> simp [hType]
  | other hType =>
    rcases hType with hType | hType | hType | hType | ⟨code, hCode, hType⟩ <;> simp [hType]
  | autoRevoke hType | renew hType | list hType | delist hType | buy hType | transfer hType =>
    simp [hType]

theorem spent_eq_of_validateTx {sh sh' : Shadow} (h : V.validateTx sh tx = .ok sh') :
    sh'.domains.spent = spentAfter tx sh.domains.spent := by
  obtain ⟨domains, hForm, hRest⟩ := validateTx_eq_ok h
  have hSpent := spent_eq_of_checkForm hForm
  obtain ⟨-, -, rfl⟩ | ⟨-, b₁, b₂, domains', coins', -, hGates, -, rfl⟩ := hRest
  · exact hSpent
  · exact (kept_checkDomainGates (type_ne_register_of_validateTx h) hGates).1.trans hSpent

theorem forSale_validateTx {sh sh' : Shadow} (h : V.validateTx sh tx = .ok sh') :
    sh'.domains.forSale = salesAfter tx sh.domains.forSale :=
  (domainGate_of_validateTx h).forSale_eq

theorem commit_validateTx {sh sh' : Shadow} (h : V.validateTx sh tx = .ok sh') (key : Bytes) :
    sh'.domains.commit key = true ↔
      sh.domains.commit key = true ∨ key ∈ commitKeys V.E tx :=
  (domainGate_of_validateTx h).commit_iff key

/-- The commits used by an accepted list. -/
theorem commit_run {before : List Transaction} {sh : Shadow} (h : V.run before = .ok sh)
    (key : Bytes) :
    sh.domains.commit key = true ↔ ∃ tx ∈ before, key ∈ commitKeys V.E tx := by
  induction before using List.reverseRecOn generalizing sh with
  | nil =>
    obtain rfl := pure_eq_ok.mp h
    simp
  | append_singleton before tx ih =>
    obtain ⟨sh₁, hBefore, hStep⟩ := run_concat.mp h
    rw [commit_validateTx hStep, ih hBefore]
    simp [or_and_right, exists_or]

theorem DomainGate.reveal_fresh {sh : DomainShadow} {owner : Bytes → Option Bytes}
    {forSale : Bytes → Option UInt64} {commit : Bytes → Bool}
    (h : DomainGate V sh tx owner forSale commit) (hType : tx.type = .reveal) :
    sh.commit (revealKey V.E tx) = false := by
  cases h with
  | reveal _ rec hOpens hFresh => exact hFresh
  | _ => simp_all

theorem checkCommit_fresh {sh sh' : DomainShadow} (h : V.checkCommit sh tx = .ok sh')
    (hType : tx.type = .commit) :
    sh.commit (hexEncode tx.commitHash) = false ∧
      V.cs.getCommit (hexEncode tx.commitHash) = none := by
  unfold checkCommit at h
  rw [if_pos hType] at h
  simp only [bind_eq_ok, require_eq_ok, exists_const] at h
  exact ⟨h.2.2.2.2.2.2.1, h.2.2.2.2.2.2.2.1⟩

/-- The hash of an accepted COMMIT is neither used in the list before nor pending. -/
theorem commit_fresh_of_validateTx {sh sh' : Shadow} (h : V.validateTx sh tx = .ok sh')
    (hType : tx.type = .commit) :
    sh.domains.commit (hexEncode tx.commitHash) = false ∧
      V.cs.getCommit (hexEncode tx.commitHash) = none := by
  obtain ⟨domains, hForm, -⟩ := validateTx_eq_ok h
  obtain ⟨redeemed, hFormed⟩ := formed_of_checkForm hForm
  have hFresh := checkCommit_fresh hFormed.commit hType
  obtain ⟨rfl, -⟩ := checkRedeems_eq_ok hFormed.redeems
  exact hFresh

/-- No transaction of the list before has used the commit of an accepted transaction. -/
theorem fresh_of_validateTx {sh sh' : Shadow} (h : V.validateTx sh tx = .ok sh') {key : Bytes}
    (hKey : key ∈ commitKeys V.E tx) : sh.domains.commit key = false := by
  unfold commitKeys at hKey
  split at hKey
  · rename_i hType
    obtain rfl := List.mem_singleton.mp hKey
    exact (commit_fresh_of_validateTx h hType).1
  · split at hKey
    · rename_i hType
      obtain rfl := List.mem_singleton.mp hKey
      exact (domainGate_of_validateTx h).reveal_fresh hType
    · exact absurd hKey List.not_mem_nil

/-- A pending commit of another key is neither made again nor opened. -/
theorem rejected_of_pending {sh : Shadow} {key : Bytes} {rec : CommitRecord}
    (hPending : V.cs.getCommit key = some rec) (hKey : key ∈ commitKeys V.E tx)
    (hOther : tx.ownerKey ≠ rec.committerPK) (sh' : Shadow) : V.validateTx sh tx ≠ .ok sh' := by
  intro h
  unfold commitKeys at hKey
  split at hKey
  · rename_i hType
    obtain rfl := List.mem_singleton.mp hKey
    rw [(commit_fresh_of_validateTx h hType).2] at hPending
    cases hPending
  · split at hKey
    · rename_i hType
      obtain rfl := List.mem_singleton.mp hKey
      obtain ⟨rec', hOpens⟩ := reveal_of_validateTx h hType
      obtain rfl := Option.some.inj (hPending.symm.trans hOpens.pending)
      exact hOther hOpens.key
    · exact absurd hKey List.not_mem_nil

/-- In an accepted list no two transactions use one commit. -/
theorem commitKeys_apart {pre post : List Transaction} {sh : Shadow}
    (h : V.run (pre ++ tx :: post) = .ok sh) {key : Bytes} (hKey : key ∈ commitKeys V.E tx) :
    ∀ u ∈ pre ++ post, key ∉ commitKeys V.E u := by
  intro u hu hUsed
  rcases List.mem_append.mp hu with hPre | hPost
  · obtain ⟨sh₁, sh₂, hBefore, hStep⟩ := run_split h rfl
    have hFresh := fresh_of_validateTx hStep hKey
    rw [(commit_run hBefore key).mpr ⟨u, hPre, hUsed⟩] at hFresh
    cases hFresh
  · obtain ⟨middle, after, rfl⟩ := List.append_of_mem hPost
    have hSplit : pre ++ tx :: (middle ++ u :: after) = (pre ++ tx :: middle) ++ u :: after := by
      simp
    obtain ⟨sh₁, sh₂, hBefore, hStep⟩ := run_split h hSplit
    have hFresh := fresh_of_validateTx hStep hUsed
    rw [(commit_run hBefore key).mpr ⟨tx, by simp, hKey⟩] at hFresh
    cases hFresh

end After

/-! ## Two validations -/

/-- Two validations of the same block. The key `rival` aside, no account has less in the second
one, and the commit `key` aside, the same commits are pending. -/
structure Rivals (rival key : Bytes) (V V' : Validation) : Prop where
  same : ∃ ledger cs, V' = { V with ledger, cs }
  nonce : ∀ k ≠ rival, V'.ledger.getNonce k = V.ledger.getNonce k
  balance : ∀ k ≠ rival, (V.ledger.getBalance k).toNat ≤ (V'.ledger.getBalance k).toNat
  commits : ∀ c ≠ key, V'.cs.getCommit c = V.cs.getCommit c

/-- The shadows of the two validations. -/
structure Ahead (rival key : Bytes) (V V' : Validation) (sh sh' : Shadow) : Prop where
  spent : sh'.domains.spent = sh.domains.spent
  forSale : sh'.domains.forSale = sh.domains.forSale
  registered : sh'.domains.registered = sh.domains.registered
  commit : ∀ c ≠ key, sh'.domains.commit c = sh.domains.commit c
  nonce : ∀ k ≠ rival, V'.runningNonce sh'.coins k = V.runningNonce sh.coins k
  balance : ∀ k ≠ rival,
    (V.runningBalance sh.coins k).toNat ≤ (V'.runningBalance sh'.coins k).toNat

variable {rival key : Bytes} {V V' : Validation} {sh sh' sh₁ sh₁' : Shadow} {tx : Transaction}

theorem Rivals.refl (V : Validation) : Rivals rival key V V :=
  ⟨⟨V.ledger, V.cs, rfl⟩, fun _ _ => rfl, fun _ _ => Nat.le_refl _, fun _ _ => rfl⟩

theorem Rivals.init (h : Rivals rival key V V') : Ahead rival key V V' {} {} :=
  ⟨rfl, rfl, rfl, fun _ _ => rfl, h.nonce, h.balance⟩

theorem Rivals.expense_eq (h : Rivals rival key V V') {a b : DomainShadow}
    (hSales : b.forSale = a.forSale) : V'.expense b tx = V.expense a tx := by
  obtain ⟨ledger, cs, rfl⟩ := h.same
  unfold expense bought currentPrice
  rw [hSales]

/-- A transaction that passes in both validations. -/
theorem Ahead.step (hRivals : Rivals rival key V V') (h : Ahead rival key V V' sh sh')
    (hPass : V.validateTx sh tx = .ok sh₁) (hPass' : V'.validateTx sh' tx = .ok sh₁') :
    Ahead rival key V V' sh₁ sh₁' where
  spent := by rw [spent_eq_of_validateTx hPass, spent_eq_of_validateTx hPass', h.spent]
  forSale := by rw [forSale_validateTx hPass, forSale_validateTx hPass', h.forSale]
  registered := by
    funext d
    rw [Bool.eq_iff_iff, registered_validateTx hPass, registered_validateTx hPass', h.registered]
  commit := by
    intro c hc
    have hE : V'.E = V.E := by
      obtain ⟨ledger, cs, rfl⟩ := hRivals.same
      rfl
    rw [Bool.eq_iff_iff, commit_validateTx hPass, commit_validateTx hPass', h.commit c hc, hE]
  nonce := by
    intro k hk
    rw [(runningNonce_of_validateTx hPass).2 k, (runningNonce_of_validateTx hPass').2 k,
      h.nonce k hk]
  balance := by
    intro k hk
    have hPaid := runningBalance_of_validateTx hPass k
    have hPaid' := runningBalance_of_validateTx hPass' k
    rw [hRivals.expense_eq h.forSale] at hPaid'
    have hBefore := h.balance k hk
    omega

/-- The additional COMMIT. -/
theorem Ahead.insert (h : Ahead rival key V V' sh sh') (hType : tx.type = .commit)
    (hRival : hexEncode tx.ownerKey = rival) (hKey : hexEncode tx.commitHash = key)
    (hPass' : V'.validateTx sh' tx = .ok sh₁') : Ahead rival key V V' sh sh₁' where
  spent := by
    rw [spent_eq_of_validateTx hPass', ← h.spent]
    simp [spentAfter, hType]
  forSale := by
    rw [forSale_validateTx hPass', ← h.forSale]
    simp [salesAfter, hType]
  registered := by
    funext d
    rw [Bool.eq_iff_iff, registered_validateTx hPass', h.registered]
    simp [hType]
  commit := by
    intro c hc
    rw [Bool.eq_iff_iff, commit_validateTx hPass', h.commit c hc]
    simp [commitKeys, hType, hKey, hc]
  nonce := by
    intro k hk
    have hOther : hexEncode tx.ownerKey ≠ k := fun hEq => hk (hEq.symm.trans hRival)
    rw [(runningNonce_of_validateTx hPass').2 k, if_neg fun hSigned => hOther hSigned.2,
      h.nonce k hk]
  balance := by
    intro k hk
    have hOther : hexEncode tx.ownerKey ≠ k := fun hEq => hk (hEq.symm.trans hRival)
    have hPaid' := runningBalance_of_validateTx hPass' k
    rw [if_neg hOther] at hPaid'
    have hBefore := h.balance k hk
    omega

/-- A list that passes in both validations. -/
theorem Ahead.foldlM (hRivals : Rivals rival key V V') {txs : List Transaction}
    (h : Ahead rival key V V' sh sh') (hPass : txs.foldlM V.validateTx sh = .ok sh₁)
    (hPass' : txs.foldlM V'.validateTx sh' = .ok sh₁') : Ahead rival key V V' sh₁ sh₁' := by
  induction txs generalizing sh sh' with
  | nil =>
    obtain rfl := pure_eq_ok.mp hPass
    obtain rfl := pure_eq_ok.mp hPass'
    exact h
  | cons tx txs ih =>
    rw [List.foldlM_cons] at hPass hPass'
    obtain ⟨sh₂, hStep, hRest⟩ := bind_eq_ok.mp hPass
    obtain ⟨sh₂', hStep', hRest'⟩ := bind_eq_ok.mp hPass'
    exact ih (h.step hRivals hStep hStep') hRest hRest'

/-! ## A COMMIT or REVEAL that passes in the first validation -/

/-- What the gates for COMMIT and REVEAL see of the shadow. -/
structure SeesAlike (key : Bytes) (a b : DomainShadow) : Prop where
  registered : b.registered = a.registered
  commit : ∀ c ≠ key, b.commit c = a.commit c

theorem Ahead.seesAlike (h : Ahead rival key V V' sh sh') :
    SeesAlike key sh.domains sh'.domains := ⟨h.registered, h.commit⟩

section Gates

variable {a b : DomainShadow}

theorem Rivals.checkRedeems (hRivals : Rivals rival key V V')
    (hType : tx.type = .commit ∨ tx.type = .reveal) (hSpent : b.spent = a.spent)
    (h : SeesAlike key a b) :
    Lockstep (SeesAlike key) (V.checkRedeems a tx) (V'.checkRedeems b tx) := by
  obtain ⟨ledger, cs, rfl⟩ := hRivals.same
  unfold Validation.checkRedeems
  split
  · rw [hSpent]
    refine .bind_same fun _ _ => .bind_same fun _ _ => ?_
    -- the gate on the domain of the redeemed transaction is not for a REVEAL
    have hReveal : ¬ (tx.type ≠ .register ∧ tx.type ≠ .reveal) := by
      rcases hType with hType | hType <;> simp_all
    rw [if_neg hReveal, if_neg hReveal]
    exact ⟨h.registered, h.commit⟩
  · exact h

theorem Rivals.checkCommit (hRivals : Rivals rival key V V') (hHash : key ∉ commitKeys V.E tx)
    (h : SeesAlike key a b) :
    Lockstep (SeesAlike key) (V.checkCommit a tx) (V'.checkCommit b tx) := by
  have hCommits := hRivals.commits
  obtain ⟨ledger, cs, rfl⟩ := hRivals.same
  unfold Validation.checkCommit
  split
  · rename_i hType
    have hOther : hexEncode tx.commitHash ≠ key := by
      rintro rfl
      exact hHash (by simp [commitKeys, hType])
    dsimp only at hCommits ⊢
    rw [h.commit _ hOther, hCommits _ hOther]
    refine .bind_same fun _ _ => .bind_same fun _ _ => .bind_same fun _ _ => .bind_same fun _ _ =>
      .bind_same fun _ _ => .bind_same fun _ _ => .bind_same fun _ _ => .bind_same fun _ _ => ?_
    refine ⟨h.registered, fun c hc => ?_⟩
    dsimp only
    rw [Function.update_apply, Function.update_apply, h.commit c hc]
  · exact h

theorem Rivals.checkForm (hRivals : Rivals rival key V V')
    (hType : tx.type = .commit ∨ tx.type = .reveal) (hHash : key ∉ commitKeys V.E tx)
    (hSpent : b.spent = a.spent) (h : SeesAlike key a b) :
    Lockstep (SeesAlike key) (V.checkForm a tx) (V'.checkForm b tx) := by
  have hSignature : V'.checkSignature tx = V.checkSignature tx := by
    obtain ⟨ledger, cs, rfl⟩ := hRivals.same
    rfl
  have hMarket : ¬ (tx.type = .list ∨ tx.type = .delist ∨ tx.type = .buy ∨
      tx.type = .transfer) := by
    rcases hType with hType | hType <;> simp [hType]
  unfold Validation.checkForm
  rw [hSignature]
  refine .bind_same fun _ _ => .bind_same fun _ _ => .bind_same fun _ _ => .bind_same fun _ _ => ?_
  refine .bind (hRivals.checkRedeems hType hSpent h) fun a b h => .bind_same fun _ _ => ?_
  refine .bind (hRivals.checkCommit hHash h) fun a b h => ?_
  unfold checkMarketPhase
  rw [if_neg hMarket, if_neg hMarket]
  exact h

theorem Rivals.checkReveal (hRivals : Rivals rival key V V') (hHash : key ∉ commitKeys V.E tx)
    (h : SeesAlike key a b) :
    Lockstep (SeesAlike key) (V.checkReveal a tx) (V'.checkReveal b tx) := by
  have hCommits := hRivals.commits
  obtain ⟨ledger, cs, rfl⟩ := hRivals.same
  unfold Validation.checkReveal
  split
  · rename_i hType
    have hOther : revealKey V.E tx ≠ key := by
      rintro rfl
      exact hHash (by simp [commitKeys, hType])
    dsimp only at hCommits ⊢
    rw [h.commit _ hOther, hCommits _ hOther, h.registered]
    refine .bind_same fun _ _ => .bind_same fun _ _ => .bind_same fun _ _ => ?_
    have hDone : SeesAlike key
        { a with
          commit := Function.update a.commit (revealKey V.E tx) true
          registered := Function.update a.registered tx.domainName true
          owner := Function.update a.owner tx.domainName (some (hexEncode tx.recipient)) }
        { b with
          commit := Function.update b.commit (revealKey V.E tx) true
          registered := Function.update a.registered tx.domainName true
          owner := Function.update b.owner tx.domainName (some (hexEncode tx.recipient)) } := by
      refine ⟨rfl, fun c hc => ?_⟩
      dsimp only
      rw [Function.update_apply, Function.update_apply, h.commit c hc]
    cases V.cs.getCommit (revealKey V.E tx) with
    | none => trivial
    | some rec =>
      refine .bind_same fun _ _ => .bind_same fun _ _ => .bind_same fun _ _ =>
        .bind_same fun _ _ => .bind_same fun _ _ => ?_
      cases V.im.getDomain tx.domainName with
      | none => exact hDone
      | some existing => exact .bind_same fun _ _ => .bind_same fun _ _ => hDone
  · exact h

/-- Of the gates on domains a COMMIT or REVEAL only meets the one for REVEAL. -/
theorem checkDomainGates_eq_checkReveal (hType : tx.type = .commit ∨ tx.type = .reveal)
    (k : Bytes) (balance : UInt64) :
    V.checkDomainGates a tx k balance =
      V.checkReveal a tx >>= fun sh => pure (balance, recordTx sh tx) := by
  have hBuy : V.checkBuy a tx k balance = .ok (balance, a) :=
    checkBuy_of_ne (by rcases hType with hType | hType <;> simp [hType])
  have hListing : V.checkListing a tx k = .ok a := by
    rcases hType with hType | hType <;>
      exact checkListing_of_ne (by simp [hType]) (by simp [hType])
  have hUpdate : V.checkUpdateRevoke a tx k = .ok () :=
    if_neg (by rcases hType with hType | hType <;> simp [hType])
  have hRenew : V.checkRenew a tx k = .ok () :=
    if_neg (by rcases hType with hType | hType <;> simp [hType])
  have hRegister : V.checkRegister a tx k = .ok a :=
    checkRegister_of_ne (by rcases hType with hType | hType <;> simp [hType])
  have hTransfer : ∀ sh, V.checkTransfer sh tx k = .ok sh := by
    rcases hType with hType | hType <;>
      exact fun sh => checkTransfer_of_ne (by simp [hType]) (by simp [hType])
  unfold Validation.checkDomainGates
  simp only [hBuy, hListing, hUpdate, hRenew, hRegister, hTransfer, bind, Except.bind]

/-- The gates on stakes are not for a COMMIT or REVEAL. -/
theorem checkStakeGates_of_commit_reveal (hType : tx.type = .commit ∨ tx.type = .reveal)
    (sh : CoinShadow) (k : Bytes) (balance : UInt64) :
    ∃ sh', V.checkStakeGates sh tx k balance = .ok sh' := by
  have hStake : V.checkStake sh tx k balance = .ok (balance, sh) :=
    if_neg (by rcases hType with hType | hType <;> simp [hType])
  have hUnstake : V.checkUnstake sh tx k = .ok sh :=
    if_neg (by rcases hType with hType | hType <;> simp [hType])
  have hProof : V.checkEquivocation sh tx = .ok sh :=
    if_neg (by rcases hType with hType | hType <;> simp [hType])
  unfold checkStakeGates
  simp only [hStake, hUnstake, hProof, bind, Except.bind]
  exact ⟨_, rfl⟩

end Gates

/-- The fee is covered and the nonce is the next one. -/
theorem Ahead.checkFunds (h : Ahead rival key V V' sh sh')
    (hType : tx.type = .commit ∨ tx.type = .reveal) {k : Bytes} (hOther : k ≠ rival)
    {balance : UInt64} (hFunds : V.checkFunds sh.coins tx k = .ok balance) :
    ∃ balance', V'.checkFunds sh'.coins tx k = .ok balance' := by
  have hFund : tx.type ≠ .fund := by rcases hType with hType | hType <;> simp [hType]
  obtain ⟨hFee, -, hNonce, hPaid⟩ := checkFunds_eq_ok hFunds
  have hCovered : tx.fee ≤ V'.runningBalance sh'.coins k := by
    rw [UInt64.le_iff_toNat_le]
    have hBalance := h.balance k hOther
    omega
  rw [← h.nonce k hOther] at hNonce
  refine ⟨V'.runningBalance sh'.coins k - tx.fee, ?_⟩
  unfold Validation.checkFunds
  simp only [hFund, if_false, bind_eq_ok, requireNaming_eq_ok, pure_eq_ok, exists_const]
  exact ⟨hFee, hCovered, hNonce, trivial⟩

/-- A COMMIT or REVEAL of another key and another hash than the additional COMMIT passes in the
second validation if it does in the first. -/
theorem Ahead.passes (hRivals : Rivals rival key V V') (h : Ahead rival key V V' sh sh')
    (hType : tx.type = .commit ∨ tx.type = .reveal) (hOther : hexEncode tx.ownerKey ≠ rival)
    (hHash : key ∉ commitKeys V.E tx) (hPass : V.validateTx sh tx = .ok sh₁) :
    ∃ sh₁', V'.validateTx sh' tx = .ok sh₁' := by
  obtain ⟨domains, hForm, ⟨hKey, -⟩ | ⟨hKey, b₁, b₂, domains₂, coins₂, hFunds, hGates, -, -⟩⟩ :=
    validateTx_eq_ok hPass
  · have hRevoke := type_of_ownerless hPass hKey
    rcases hType with hType | hType <;> exact absurd (hRevoke.symm.trans hType) (by decide)
  · obtain ⟨domains', hForm', hSees⟩ :=
      (hRivals.checkForm hType hHash h.spent h.seesAlike).exists_ok hForm
    obtain ⟨balance, hFunds'⟩ := h.checkFunds hType hOther hFunds
    rw [checkDomainGates_eq_checkReveal hType] at hGates
    obtain ⟨revealed, hReveal, -⟩ := bind_eq_ok.mp hGates
    obtain ⟨revealed', hReveal', -⟩ := (hRivals.checkReveal hHash hSees).exists_ok hReveal
    obtain ⟨coins', hStakes'⟩ := @checkStakeGates_of_commit_reveal V' tx hType sh'.coins
      (hexEncode tx.ownerKey) balance
    refine ⟨⟨recordTx revealed' tx, coins'⟩, ?_⟩
    unfold validateTx
    rw [hForm']
    simp only [bind, Except.bind, if_neg hKey, hFunds', checkDomainGates_eq_checkReveal hType,
      hReveal', pure, Except.pure, hStakes']

end Validation

end Bdns.Blockchain
