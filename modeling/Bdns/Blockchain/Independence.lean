import Bdns.Blockchain.DomainGate

/-!
# Transactions that do not meet

Validation tracks what earlier transactions of a list change in shadow maps. A transaction
looks at these maps, and writes to them, at a few places only: its key, its domain, the
transaction that it redeems and its commit. Two transactions whose places are apart do not see
each other, and a list of such transactions passes in any order.

EQUIVOCATION_PROOF is left out: it looks at the stakes of the offender, who is named in the
evidence.
-/

namespace Bdns.Blockchain

open Lib Index

/-! ## Places in the shadow maps -/

/-- Some keys, domains, transaction numbers and commits. -/
structure Footprint where
  keys : Set Bytes
  domains : Set Bytes
  tids : Set Int64
  commits : Set Bytes

/-- Two shadows that say the same about the places of a footprint. -/
structure DomainShadow.Agree (S : Footprint) (a b : DomainShadow) : Prop where
  spent : ∀ tid ∈ S.tids, a.spent tid = b.spent tid
  tx : ∀ tid ∈ S.tids, a.tx tid = b.tx tid
  forSale : ∀ d ∈ S.domains, a.forSale d = b.forSale d
  registered : ∀ d ∈ S.domains, a.registered d = b.registered d
  owner : ∀ d ∈ S.domains, a.owner d = b.owner d
  commit : ∀ c ∈ S.commits, a.commit c = b.commit c

structure CoinShadow.Agree (S : Footprint) (a b : CoinShadow) : Prop where
  nonce : ∀ k ∈ S.keys, a.nonce k = b.nonce k
  balance : ∀ k ∈ S.keys, a.balance k = b.balance k
  stake : ∀ k ∈ S.keys, a.stake k = b.stake k
  pendingStake : ∀ k ∈ S.keys, a.pendingStake k = b.pendingStake k

structure Shadow.Agree (S : Footprint) (a b : Shadow) : Prop where
  domains : a.domains.Agree S b.domains
  coins : a.coins.Agree S b.coins

theorem DomainShadow.Agree.refl (S : Footprint) (a : DomainShadow) : a.Agree S a :=
  ⟨fun _ _ => rfl, fun _ _ => rfl, fun _ _ => rfl, fun _ _ => rfl, fun _ _ => rfl, fun _ _ => rfl⟩

theorem DomainShadow.Agree.trans {S : Footprint} {a b c : DomainShadow} (h : a.Agree S b)
    (h' : b.Agree S c) : a.Agree S c :=
  ⟨fun x hx => (h.spent x hx).trans (h'.spent x hx), fun x hx => (h.tx x hx).trans (h'.tx x hx),
    fun x hx => (h.forSale x hx).trans (h'.forSale x hx),
    fun x hx => (h.registered x hx).trans (h'.registered x hx),
    fun x hx => (h.owner x hx).trans (h'.owner x hx),
    fun x hx => (h.commit x hx).trans (h'.commit x hx)⟩

theorem DomainShadow.Agree.symm {S : Footprint} {a b : DomainShadow} (h : a.Agree S b) :
    b.Agree S a :=
  ⟨fun x hx => (h.spent x hx).symm, fun x hx => (h.tx x hx).symm,
    fun x hx => (h.forSale x hx).symm, fun x hx => (h.registered x hx).symm,
    fun x hx => (h.owner x hx).symm, fun x hx => (h.commit x hx).symm⟩

theorem CoinShadow.Agree.refl (S : Footprint) (a : CoinShadow) : a.Agree S a :=
  ⟨fun _ _ => rfl, fun _ _ => rfl, fun _ _ => rfl, fun _ _ => rfl⟩

theorem CoinShadow.Agree.trans {S : Footprint} {a b c : CoinShadow} (h : a.Agree S b)
    (h' : b.Agree S c) : a.Agree S c :=
  ⟨fun x hx => (h.nonce x hx).trans (h'.nonce x hx),
    fun x hx => (h.balance x hx).trans (h'.balance x hx),
    fun x hx => (h.stake x hx).trans (h'.stake x hx),
    fun x hx => (h.pendingStake x hx).trans (h'.pendingStake x hx)⟩

theorem CoinShadow.Agree.symm {S : Footprint} {a b : CoinShadow} (h : a.Agree S b) :
    b.Agree S a :=
  ⟨fun x hx => (h.nonce x hx).symm, fun x hx => (h.balance x hx).symm,
    fun x hx => (h.stake x hx).symm, fun x hx => (h.pendingStake x hx).symm⟩

theorem Shadow.Agree.refl (S : Footprint) (a : Shadow) : a.Agree S a := ⟨.refl S _, .refl S _⟩

theorem Shadow.Agree.trans {S : Footprint} {a b c : Shadow} (h : a.Agree S b) (h' : b.Agree S c) :
    a.Agree S c :=
  ⟨h.domains.trans h'.domains, h.coins.trans h'.coins⟩

theorem Shadow.Agree.symm {S : Footprint} {a b : Shadow} (h : a.Agree S b) : b.Agree S a :=
  ⟨h.domains.symm, h.coins.symm⟩

/-- The same write to two maps. -/
theorem agree_update {α β : Type} [DecidableEq α] {s : Set α} {f g : α → β}
    (h : ∀ x ∈ s, f x = g x) (a : α) (v : β) :
    ∀ x ∈ s, Function.update f a v x = Function.update g a v x := by
  intro x hx
  rw [Function.update_apply, Function.update_apply]
  split
  · rfl
  · exact h x hx

/-- A write outside of the set. -/
theorem eq_update_of_notMem {α β : Type} [DecidableEq α] {s : Set α} {a : α} (ha : a ∉ s)
    (f : α → β) (v : β) : ∀ x ∈ s, f x = Function.update f a v x := by
  intro x hx
  have hNe : x ≠ a := fun hEq => ha (hEq ▸ hx)
  rw [Function.update_of_ne hNe]

/-! ## The places of a transaction -/

/-- The operations on domains. -/
def UsesDomain (tx : Transaction) : Prop :=
  tx.type = .register ∨ tx.type = .update ∨ tx.type = .revoke ∨ tx.type = .renew ∨
    tx.type = .reveal ∨ tx.type = .list ∨ tx.type = .delist ∨ tx.type = .buy ∨
    tx.type = .transfer

instance (tx : Transaction) : Decidable (UsesDomain tx) := by
  unfold UsesDomain
  infer_instance

/-- The commit that a COMMIT makes or a REVEAL opens. -/
def commitKeys (E : External) (tx : Transaction) : List Bytes :=
  if tx.type = .commit then [hexEncode tx.commitHash]
  else if tx.type = .reveal then [Validation.revealKey E tx]
  else []

/-- The places of a transaction are in the footprint. -/
structure Footprint.Covers (E : External) (S : Footprint) (tx : Transaction) : Prop where
  key : hexEncode tx.ownerKey ∈ S.keys
  domain : UsesDomain tx → tx.domainName ∈ S.domains
  redeemed : tx.redeemsTxID ≠ 0 → tx.redeemsTxID ∈ S.tids
  commits : ∀ c ∈ commitKeys E tx, c ∈ S.commits

/-- The places of one transaction. -/
def Footprint.of (E : External) (tx : Transaction) : Footprint where
  keys := {hexEncode tx.ownerKey}
  domains := {d | UsesDomain tx ∧ d = tx.domainName}
  tids := {tid | tid ≠ 0 ∧ tid = tx.redeemsTxID}
  commits := {c | c ∈ commitKeys E tx}

theorem Footprint.covers_of (E : External) (tx : Transaction) : (Footprint.of E tx).Covers E tx :=
  ⟨rfl, fun hUses => ⟨hUses, rfl⟩, fun hRedeems => ⟨hRedeems, rfl⟩, fun _ hc => hc⟩

theorem Shadow.Agree.of_covers {E : External} {S : Footprint} {tx : Transaction} {a b : Shadow}
    (hTx : S.Covers E tx) (h : a.Agree S b) : a.Agree (.of E tx) b := by
  have hKeys : ∀ k ∈ (Footprint.of E tx).keys, k ∈ S.keys := by
    rintro k rfl
    exact hTx.key
  have hDomains : ∀ d ∈ (Footprint.of E tx).domains, d ∈ S.domains := by
    rintro d ⟨hUses, rfl⟩
    exact hTx.domain hUses
  have hTids : ∀ tid ∈ (Footprint.of E tx).tids, tid ∈ S.tids := by
    rintro tid ⟨hRedeems, rfl⟩
    exact hTx.redeemed hRedeems
  exact
    ⟨⟨fun x hx => h.domains.spent x (hTids x hx), fun x hx => h.domains.tx x (hTids x hx),
      fun x hx => h.domains.forSale x (hDomains x hx),
      fun x hx => h.domains.registered x (hDomains x hx),
      fun x hx => h.domains.owner x (hDomains x hx),
      fun x hx => h.domains.commit x (hTx.commits x hx)⟩,
    ⟨fun x hx => h.coins.nonce x (hKeys x hx), fun x hx => h.coins.balance x (hKeys x hx),
      fun x hx => h.coins.stake x (hKeys x hx), fun x hx => h.coins.pendingStake x (hKeys x hx)⟩⟩

/-! ## The gates see no more than these places -/

namespace Validation

variable {V : Validation} {S : Footprint} {tx : Transaction}

section Domains

variable {a b : DomainShadow} {k : Bytes} {balance : UInt64}

theorem checkRedeems_lockstep (hTx : S.Covers V.E tx) (h : a.Agree S b) :
    Lockstep (DomainShadow.Agree S) (V.checkRedeems a tx) (V.checkRedeems b tx) := by
  unfold checkRedeems
  split
  · rename_i hRedeems
    have hTid := hTx.redeemed hRedeems.1
    rw [h.spent _ hTid, h.tx _ hTid]
    refine .bind_same fun _ _ => .bind_same fun _ _ => ?_
    have hDone : DomainShadow.Agree S
        { a with spent := Function.update a.spent tx.redeemsTxID true }
        { b with spent := Function.update b.spent tx.redeemsTxID true } :=
      { h with spent := agree_update h.spent _ _ }
    dsimp only
    split
    · split
      · exact .bind_same fun _ _ => hDone
      · exact .bind_same fun _ _ => hDone
    · exact hDone
  · exact h

theorem checkCommit_lockstep (hTx : S.Covers V.E tx) (h : a.Agree S b) :
    Lockstep (DomainShadow.Agree S) (V.checkCommit a tx) (V.checkCommit b tx) := by
  unfold checkCommit
  split
  · rename_i hType
    have hCommit := h.commit _ (hTx.commits (hexEncode tx.commitHash) (by simp [commitKeys, hType]))
    dsimp only
    rw [hCommit]
    refine .bind_same fun _ _ => .bind_same fun _ _ => .bind_same fun _ _ => .bind_same fun _ _ =>
      .bind_same fun _ _ => .bind_same fun _ _ => .bind_same fun _ _ => .bind_same fun _ _ => ?_
    exact { h with commit := agree_update h.commit _ _ }
  · exact h

theorem domainIn_eq (hDomain : tx.domainName ∈ S.domains) (h : a.Agree S b)
    (acceptable : Phase → Prop) [DecidablePred acceptable] :
    V.domainIn a tx.domainName acceptable = V.domainIn b tx.domainName acceptable := by
  unfold domainIn
  rw [h.registered _ hDomain]

theorem checkMarketPhase_eq (hTx : S.Covers V.E tx) (h : a.Agree S b) :
    V.checkMarketPhase a tx = V.checkMarketPhase b tx := by
  unfold checkMarketPhase
  split
  · rename_i hType
    refine domainIn_eq (hTx.domain ?_) h _
    rcases hType with hType | hType | hType | hType <;> simp [UsesDomain, hType]
  · rfl

/-- The gates before the first look at coins. -/
theorem checkForm_lockstep (hTx : S.Covers V.E tx) (h : a.Agree S b) :
    Lockstep (DomainShadow.Agree S) (V.checkForm a tx) (V.checkForm b tx) := by
  unfold checkForm
  refine .bind_same fun _ _ => .bind_same fun _ _ => .bind_same fun _ _ => .bind_same fun _ _ => ?_
  refine (checkRedeems_lockstep hTx h).bind fun a₁ b₁ h₁ => .bind_same fun _ _ => ?_
  refine (checkCommit_lockstep hTx h₁).bind fun a₂ b₂ h₂ => ?_
  rw [checkMarketPhase_eq hTx h₂]
  exact .bind_same fun _ _ => h₂

theorem checkOwnerless_eq (hTx : S.Covers V.E tx) (h : a.Agree S b) :
    V.checkOwnerless a tx = V.checkOwnerless b tx := by
  unfold checkOwnerless
  by_cases hType : tx.type = .revoke
  · rw [h.registered _ (hTx.domain (by simp [UsesDomain, hType]))]
  · simp [hType, require, check, bind, Except.bind, throw, throwThe, MonadExceptOf.throw]

theorem currentOwner_eq (hDomain : tx.domainName ∈ S.domains) (h : a.Agree S b) :
    V.currentOwner a tx.domainName = V.currentOwner b tx.domainName := by
  unfold currentOwner
  rw [h.owner _ hDomain]

theorem isListed_eq (hDomain : tx.domainName ∈ S.domains) (h : a.Agree S b) :
    V.isListed a tx.domainName = V.isListed b tx.domainName := by
  unfold isListed
  rw [h.forSale _ hDomain]

theorem checkBuy_lockstep (hTx : S.Covers V.E tx) (h : a.Agree S b) :
    Lockstep (fun x y => x.1 = y.1 ∧ x.2.Agree S y.2) (V.checkBuy a tx k balance)
      (V.checkBuy b tx k balance) := by
  unfold checkBuy
  split
  · rename_i hType
    have hDomain := hTx.domain (by simp [UsesDomain, hType])
    rw [isListed_eq hDomain h, currentOwner_eq hDomain h, h.forSale _ hDomain]
    refine .bind_same fun _ _ => .bind_same fun _ _ => .bind_same fun _ _ => .bind_same fun _ _ => ?_
    exact ⟨rfl, { h with forSale := agree_update h.forSale _ _ }⟩
  · exact ⟨rfl, h⟩

theorem checkListing_lockstep (hTx : S.Covers V.E tx) (h : a.Agree S b) :
    Lockstep (DomainShadow.Agree S) (V.checkListing a tx k) (V.checkListing b tx k) := by
  unfold checkListing
  split
  · rename_i hType
    have hDomain := hTx.domain (by rcases hType with hType | hType <;> simp [UsesDomain, hType])
    rw [isListed_eq hDomain h, currentOwner_eq hDomain h]
    refine .bind_same fun _ _ => ?_
    split
    · exact { h with forSale := agree_update h.forSale _ _ }
    · exact .bind_same fun _ _ => { h with forSale := agree_update h.forSale _ _ }
  · exact h

theorem checkUpdateRevoke_eq (hTx : S.Covers V.E tx) (h : a.Agree S b) :
    V.checkUpdateRevoke a tx k = V.checkUpdateRevoke b tx k := by
  unfold checkUpdateRevoke
  split
  · rename_i hType
    have hDomain := hTx.domain (by rcases hType with hType | hType <;> simp [UsesDomain, hType])
    rw [domainIn_eq hDomain h, currentOwner_eq hDomain h]
  · rfl

theorem checkRenew_eq (hTx : S.Covers V.E tx) (h : a.Agree S b) :
    V.checkRenew a tx k = V.checkRenew b tx k := by
  unfold checkRenew
  split
  · rename_i hType
    rw [domainIn_eq (hTx.domain (by simp [UsesDomain, hType])) h]
  · rfl

theorem checkRegister_lockstep (hTx : S.Covers V.E tx) (h : a.Agree S b) :
    Lockstep (DomainShadow.Agree S) (V.checkRegister a tx k) (V.checkRegister b tx k) := by
  unfold checkRegister
  split
  · rename_i hType
    rw [h.registered _ (hTx.domain (by simp [UsesDomain, hType]))]
    have hDone : DomainShadow.Agree S
        { a with
          registered := Function.update a.registered tx.domainName true
          owner := Function.update a.owner tx.domainName (some k) }
        { b with
          registered := Function.update b.registered tx.domainName true
          owner := Function.update b.owner tx.domainName (some k) } :=
      { h with
        registered := agree_update h.registered _ _
        owner := agree_update h.owner _ _ }
    refine .bind_same fun _ _ => .bind_same fun _ _ => ?_
    split
    · exact hDone
    · exact .bind_same fun _ _ => hDone
  · exact h

theorem checkReveal_lockstep (hTx : S.Covers V.E tx) (h : a.Agree S b) :
    Lockstep (DomainShadow.Agree S) (V.checkReveal a tx) (V.checkReveal b tx) := by
  unfold checkReveal
  split
  · rename_i hType
    dsimp only
    rw [h.registered _ (hTx.domain (by simp [UsesDomain, hType])),
      h.commit _ (hTx.commits (revealKey V.E tx) (by simp [commitKeys, hType]))]
    have hDone : DomainShadow.Agree S
        { a with
          commit := Function.update a.commit (revealKey V.E tx) true
          registered := Function.update a.registered tx.domainName true
          owner := Function.update a.owner tx.domainName (some (hexEncode tx.recipient)) }
        { b with
          commit := Function.update b.commit (revealKey V.E tx) true
          registered := Function.update b.registered tx.domainName true
          owner := Function.update b.owner tx.domainName (some (hexEncode tx.recipient)) } :=
      { h with
        commit := agree_update h.commit _ _
        registered := agree_update h.registered _ _
        owner := agree_update h.owner _ _ }
    refine .bind_same fun _ _ => .bind_same fun _ _ => .bind_same fun _ _ => ?_
    split
    · trivial
    · refine .bind_same fun _ _ => .bind_same fun _ _ => .bind_same fun _ _ =>
        .bind_same fun _ _ => .bind_same fun _ _ => ?_
      split
      · exact hDone
      · exact .bind_same fun _ _ => .bind_same fun _ _ => hDone
  · exact h

theorem checkTransfer_lockstep (hTx : S.Covers V.E tx) (h : a.Agree S b) :
    Lockstep (DomainShadow.Agree S) (V.checkTransfer a tx k) (V.checkTransfer b tx k) := by
  unfold checkTransfer
  split
  · rename_i hType
    rw [currentOwner_eq (hTx.domain (by simp [UsesDomain, hType])) h]
    refine .bind_same fun _ _ => ?_
    exact { h with owner := agree_update h.owner _ _, forSale := agree_update h.forSale _ _ }
  · split
    · exact { h with owner := agree_update h.owner _ _ }
    · exact h

theorem recordTx_agree (h : a.Agree S b) : (recordTx a tx).Agree S (recordTx b tx) := by
  unfold recordTx
  split
  · exact { h with tx := agree_update h.tx _ _ }
  · exact h

theorem checkDomainGates_lockstep (hTx : S.Covers V.E tx) (h : a.Agree S b) :
    Lockstep (fun x y => x.1 = y.1 ∧ x.2.Agree S y.2) (V.checkDomainGates a tx k balance)
      (V.checkDomainGates b tx k balance) := by
  unfold checkDomainGates
  refine (checkBuy_lockstep hTx h).bind fun (c, a₁) (c', b₁) ⟨hBalance, h₁⟩ => ?_
  refine (checkListing_lockstep hTx h₁).bind fun a₂ b₂ h₂ => ?_
  rw [checkUpdateRevoke_eq hTx h₂, checkRenew_eq hTx h₂]
  refine .bind_same fun _ _ => .bind_same fun _ _ => ?_
  refine (checkRegister_lockstep hTx h₂).bind fun a₃ b₃ h₃ => ?_
  refine (checkReveal_lockstep hTx h₃).bind fun a₄ b₄ h₄ => ?_
  refine (checkTransfer_lockstep hTx h₄).bind fun a₅ b₅ h₅ => ?_
  exact ⟨hBalance, recordTx_agree h₅⟩

end Domains

section Coins

variable {a b : CoinShadow} {k : Bytes} {balance : UInt64}

theorem runningBalance_eq (hKey : k ∈ S.keys) (h : a.Agree S b) :
    V.runningBalance a k = V.runningBalance b k := by
  unfold runningBalance
  rw [h.balance _ hKey]

theorem runningNonce_eq (hKey : k ∈ S.keys) (h : a.Agree S b) :
    V.runningNonce a k = V.runningNonce b k := by
  unfold runningNonce
  rw [h.nonce _ hKey]

theorem runningStake_eq (hKey : k ∈ S.keys) (h : a.Agree S b) :
    V.runningStake a k = V.runningStake b k := by
  unfold runningStake
  rw [h.stake _ hKey]

theorem checkFunds_eq (hKey : k ∈ S.keys) (h : a.Agree S b) :
    V.checkFunds a tx k = V.checkFunds b tx k := by
  unfold checkFunds
  rw [runningBalance_eq hKey h, runningNonce_eq hKey h]

theorem checkStake_lockstep (hKey : k ∈ S.keys) (h : a.Agree S b) :
    Lockstep (fun x y => x.1 = y.1 ∧ x.2.Agree S y.2) (V.checkStake a tx k balance)
      (V.checkStake b tx k balance) := by
  unfold checkStake
  rw [runningStake_eq hKey h]
  split
  · refine .bind_same fun _ _ => .bind_same fun _ _ => .bind_same fun _ _ => .bind_same fun _ _ => ?_
    exact ⟨rfl, { h with stake := agree_update h.stake _ _ }⟩
  · exact ⟨rfl, h⟩

theorem checkUnstake_lockstep (hKey : k ∈ S.keys) (h : a.Agree S b) :
    Lockstep (CoinShadow.Agree S) (V.checkUnstake a tx k) (V.checkUnstake b tx k) := by
  unfold checkUnstake
  rw [runningStake_eq hKey h]
  split
  · refine .bind_same fun _ _ => .bind_same fun _ _ => .bind_same fun _ _ => ?_
    rw [h.pendingStake _ hKey]
    exact { h with
      stake := agree_update h.stake _ _
      pendingStake := agree_update h.pendingStake _ _ }
  · exact h

theorem checkStakeGates_lockstep (hProof : tx.type ≠ .equivocationProof) (hKey : k ∈ S.keys)
    (h : a.Agree S b) :
    Lockstep (CoinShadow.Agree S) (V.checkStakeGates a tx k balance)
      (V.checkStakeGates b tx k balance) := by
  unfold checkStakeGates checkEquivocation
  rw [runningNonce_eq hKey h]
  refine (checkStake_lockstep hKey h).bind fun (c, a₁) (c', b₁) ⟨hBalance, h₁⟩ => ?_
  refine (checkUnstake_lockstep hKey h₁).bind fun a₂ b₂ h₂ => ?_
  rw [if_neg hProof, if_neg hProof]
  obtain rfl : c = c' := hBalance
  exact { h₂ with nonce := agree_update h₂.nonce _ _, balance := agree_update h₂.balance _ _ }

end Coins

/-- Where two shadows agree about its places, a transaction fares the same with both. -/
theorem validateTx_lockstep {a b : Shadow} (hProof : tx.type ≠ .equivocationProof)
    (hTx : S.Covers V.E tx) (h : a.Agree S b) :
    Lockstep (Shadow.Agree S) (V.validateTx a tx) (V.validateTx b tx) := by
  unfold validateTx
  refine (checkForm_lockstep hTx h.domains).bind fun a₁ b₁ h₁ => ?_
  split
  · rw [checkOwnerless_eq hTx h₁]
    exact .bind_same fun _ _ => ⟨h₁, h.coins⟩
  · dsimp only
    rw [checkFunds_eq hTx.key h.coins]
    refine .bind_same fun balance _ => ?_
    refine (checkDomainGates_lockstep hTx h₁).bind fun (c, a₂) (c', b₂) ⟨hBalance, h₂⟩ => ?_
    obtain rfl : c = c' := hBalance
    exact (checkStakeGates_lockstep hProof hTx.key h.coins).bind fun a₃ b₃ h₃ => ⟨h₂, h₃⟩

end Validation

/-! ## The gates write no more than these places -/

/-- All but the places of a transaction. -/
def Footprint.outside (E : External) (tx : Transaction) : Footprint where
  keys := {k | k ≠ hexEncode tx.ownerKey}
  domains := {d | UsesDomain tx → d ≠ tx.domainName}
  tids := {tid | tid ≠ tx.tid ∧ tid ≠ tx.redeemsTxID}
  commits := {c | c ∉ commitKeys E tx}

/-- No place of the transaction is in the footprint. -/
structure Footprint.Avoids (E : External) (S : Footprint) (tx : Transaction) : Prop where
  key : hexEncode tx.ownerKey ∉ S.keys
  domain : UsesDomain tx → tx.domainName ∉ S.domains
  tid : tx.tid ∉ S.tids
  redeemed : tx.redeemsTxID ≠ 0 → tx.redeemsTxID ∉ S.tids
  commits : ∀ c ∈ commitKeys E tx, c ∉ S.commits

theorem Footprint.outside_avoids (E : External) (tx : Transaction) :
    (Footprint.outside E tx).Avoids E tx where
  key hMem := hMem rfl
  domain hUses hMem := hMem hUses rfl
  tid hMem := hMem.1 rfl
  redeemed _ hMem := hMem.2 rfl
  commits _ hc hMem := hMem hc

namespace Validation

variable {V : Validation} {S : Footprint} {tx : Transaction}

section Domains

variable {sh sh' : DomainShadow} {k : Bytes} {balance balance' : UInt64}

theorem agree_checkRedeems (hS : S.Avoids V.E tx) (h : V.checkRedeems sh tx = .ok sh') :
    sh.Agree S sh' := by
  obtain ⟨rfl, -⟩ := checkRedeems_eq_ok h
  unfold spentAfter
  split
  · rename_i hRedeems
    exact { DomainShadow.Agree.refl _ sh with
      spent := eq_update_of_notMem (hS.redeemed hRedeems.1) _ _ }
  · exact .refl _ _

theorem agree_checkCommit (hS : S.Avoids V.E tx) (h : V.checkCommit sh tx = .ok sh') :
    sh.Agree S sh' := by
  obtain ⟨-, rfl⟩ | ⟨hType, -, rfl⟩ := checkCommit_eq_ok h
  · exact .refl _ _
  · have hCommit := hS.commits (hexEncode tx.commitHash) (by simp [commitKeys, hType])
    exact { DomainShadow.Agree.refl _ sh with commit := eq_update_of_notMem hCommit _ _ }

theorem agree_checkForm (hS : S.Avoids V.E tx) (h : V.checkForm sh tx = .ok sh') :
    sh.Agree S sh' := by
  obtain ⟨redeemed, hFormed⟩ := formed_of_checkForm h
  exact (agree_checkRedeems hS hFormed.redeems).trans (agree_checkCommit hS hFormed.commit)

theorem agree_checkBuy (hS : S.Avoids V.E tx)
    (h : V.checkBuy sh tx k balance = .ok (balance', sh')) : sh.Agree S sh' := by
  unfold checkBuy at h
  split at h
  · rename_i hType
    obtain ⟨_, -, h⟩ := bind_eq_ok.mp h
    obtain ⟨_, -, h⟩ := bind_eq_ok.mp h
    obtain ⟨_, -, h⟩ := bind_eq_ok.mp h
    obtain ⟨_, -, h⟩ := bind_eq_ok.mp h
    obtain ⟨-, rfl⟩ := Prod.mk.inj (pure_eq_ok.mp h)
    have hDomain := hS.domain (by simp [UsesDomain, hType])
    exact { DomainShadow.Agree.refl _ sh with forSale := eq_update_of_notMem hDomain _ _ }
  · obtain ⟨-, rfl⟩ := Prod.mk.inj (pure_eq_ok.mp h)
    exact .refl _ _

theorem agree_checkListing (hS : S.Avoids V.E tx) (h : V.checkListing sh tx k = .ok sh') :
    sh.Agree S sh' := by
  unfold checkListing at h
  split at h
  · rename_i hType
    have hDomain := hS.domain (by rcases hType with hType | hType <;> simp [UsesDomain, hType])
    obtain ⟨_, -, h⟩ := bind_eq_ok.mp h
    split at h
    · obtain rfl := pure_eq_ok.mp h
      exact { DomainShadow.Agree.refl _ sh with forSale := eq_update_of_notMem hDomain _ _ }
    · obtain ⟨_, -, h⟩ := bind_eq_ok.mp h
      obtain rfl := pure_eq_ok.mp h
      exact { DomainShadow.Agree.refl _ sh with forSale := eq_update_of_notMem hDomain _ _ }
  · obtain rfl := pure_eq_ok.mp h
    exact .refl _ _

theorem agree_checkReveal (hS : S.Avoids V.E tx) (h : V.checkReveal sh tx = .ok sh') :
    sh.Agree S sh' := by
  by_cases hType : tx.type = .reveal
  · obtain ⟨rec, -, -, rfl⟩ := checkReveal_eq_ok h hType
    have hDomain := hS.domain (by simp [UsesDomain, hType])
    have hCommit := hS.commits (revealKey V.E tx) (by simp [commitKeys, hType])
    exact { DomainShadow.Agree.refl _ sh with
      commit := eq_update_of_notMem hCommit _ _
      registered := eq_update_of_notMem hDomain _ _
      owner := eq_update_of_notMem hDomain _ _ }
  · obtain rfl := Except.ok.inj ((checkReveal_of_ne hType).symm.trans h)
    exact .refl _ _

theorem agree_checkTransfer (hS : S.Avoids V.E tx) (h : V.checkTransfer sh tx k = .ok sh') :
    sh.Agree S sh' := by
  unfold checkTransfer at h
  split at h
  · rename_i hType
    have hDomain := hS.domain (by simp [UsesDomain, hType])
    obtain ⟨_, -, h⟩ := bind_eq_ok.mp h
    obtain rfl := pure_eq_ok.mp h
    exact { DomainShadow.Agree.refl _ sh with
      owner := eq_update_of_notMem hDomain _ _
      forSale := eq_update_of_notMem hDomain _ _ }
  · split at h
    · rename_i hType
      have hDomain := hS.domain (by simp [UsesDomain, hType])
      obtain rfl := pure_eq_ok.mp h
      exact { DomainShadow.Agree.refl _ sh with owner := eq_update_of_notMem hDomain _ _ }
    · obtain rfl := pure_eq_ok.mp h
      exact .refl _ _

theorem agree_recordTx (hS : S.Avoids V.E tx) (sh : DomainShadow) :
    sh.Agree S (recordTx sh tx) := by
  unfold recordTx
  split
  · exact { DomainShadow.Agree.refl _ sh with
      tx := eq_update_of_notMem hS.tid _ _ }
  · exact .refl _ _

theorem agree_checkDomainGates (hS : S.Avoids V.E tx) (hRegister : tx.type ≠ .register)
    (h : V.checkDomainGates sh tx k balance = .ok (balance', sh')) :
    sh.Agree S sh' := by
  obtain ⟨b, sh₁, sh₂, sh₃, sh₄, sh₅, h₁, h₂, -, -, h₃, h₄, h₅, rfl⟩ := checkDomainGates_eq_ok h
  obtain rfl := Except.ok.inj ((checkRegister_of_ne hRegister).symm.trans h₃)
  exact (agree_checkBuy hS h₁).trans ((agree_checkListing hS h₂).trans
    ((agree_checkReveal hS h₄).trans ((agree_checkTransfer hS h₅).trans (agree_recordTx hS sh₅))))

end Domains

theorem agree_checkStakeGates {sh sh' : CoinShadow} {balance : UInt64} (hS : S.Avoids V.E tx)
    (hProof : tx.type ≠ .equivocationProof)
    (h : V.checkStakeGates sh tx (hexEncode tx.ownerKey) balance = .ok sh') :
    sh.Agree S sh' := by
  have hKey := hS.key
  obtain ⟨balance', mid, hStep, -, rfl⟩ := checkStakeGates_eq_ok h
  have hMid : sh.Agree S mid := by
    cases hStep with
    | stake =>
      exact { CoinShadow.Agree.refl _ sh with stake := eq_update_of_notMem hKey _ _ }
    | unstake =>
      exact { CoinShadow.Agree.refl _ sh with
        stake := eq_update_of_notMem hKey _ _
        pendingStake := eq_update_of_notMem hKey _ _ }
    | proof hType => exact absurd hType hProof
    | other => exact .refl _ _
  exact hMid.trans { CoinShadow.Agree.refl _ mid with
    nonce := eq_update_of_notMem hKey _ _
    balance := eq_update_of_notMem hKey _ _ }

/-- An accepted transaction changes the shadow at its own places. -/
theorem agree_validateTx {sh sh' : Shadow} (hS : S.Avoids V.E tx)
    (hProof : tx.type ≠ .equivocationProof) (h : V.validateTx sh tx = .ok sh') :
    sh.Agree S sh' := by
  have hRegister := type_ne_register_of_validateTx h
  obtain ⟨domains, hForm, hRest⟩ := validateTx_eq_ok h
  have hFormed := agree_checkForm hS hForm
  obtain ⟨-, -, rfl⟩ | ⟨-, b₁, b₂, domains', coins', -, hGates, hStakes, rfl⟩ := hRest
  · exact ⟨hFormed, .refl _ _⟩
  · exact ⟨hFormed.trans (agree_checkDomainGates hS hRegister hGates),
      agree_checkStakeGates hS hProof hStakes⟩

end Validation

/-! ## Lists of transactions that do not meet -/

/-- Two transactions whose places are apart. -/
structure Apart (E : External) (tx tx' : Transaction) : Prop where
  left : (Footprint.outside E tx).Covers E tx'
  right : (Footprint.outside E tx').Covers E tx

theorem Apart.symm {E : External} {tx tx' : Transaction} (h : Apart E tx tx') : Apart E tx' tx :=
  ⟨h.right, h.left⟩

/-- COMMITs of two keys to two hashes. -/
theorem apart_of_commit {E : External} {tx tx' : Transaction} (hType : tx.type = .commit)
    (hType' : tx'.type = .commit) (hKey : tx.ownerKey ≠ tx'.ownerKey)
    (hHash : tx.commitHash ≠ tx'.commitHash) (hRedeems : tx.redeemsTxID = 0)
    (hRedeems' : tx'.redeemsTxID = 0) : Apart E tx tx' := by
  have hHex : hexEncode tx.ownerKey ≠ hexEncode tx'.ownerKey := hexEncode_injective.ne hKey
  have hHexHash : hexEncode tx.commitHash ≠ hexEncode tx'.commitHash := hexEncode_injective.ne hHash
  constructor
  · refine ⟨hHex.symm, by simp [UsesDomain, hType'], by simp [hRedeems'], ?_⟩
    simp [commitKeys, hType, hType', Footprint.outside, hHexHash.symm]
  · refine ⟨hHex, by simp [UsesDomain, hType], by simp [hRedeems], ?_⟩
    simp [commitKeys, hType, hType', Footprint.outside, hHexHash]

/-- No two transactions of the list meet, and none proves an equivocation. -/
structure Independent (E : External) (txs : List Transaction) : Prop where
  apart : txs.Pairwise (Apart E)
  proofs : ∀ tx ∈ txs, tx.type ≠ .equivocationProof

theorem Independent.of_subperm {E : External} {txs txs' : List Transaction}
    (h : Independent E txs) (hSub : txs'.Subperm txs) : Independent E txs' := by
  obtain ⟨middle, hPerm, hSublist⟩ := hSub
  refine ⟨?_, fun tx hTx => h.proofs tx (hSublist.subset (hPerm.mem_iff.mpr hTx))⟩
  exact (hPerm.pairwise_iff fun {_ _} => Apart.symm).mp (h.apart.sublist hSublist)

namespace Validation

variable {V : Validation} {tx : Transaction}

/-- Transactions apart from `tx` leave its places alone. -/
theorem agree_foldlM {txs : List Transaction} {sh sh' : Shadow}
    (hApart : ∀ other ∈ txs, other.type ≠ .equivocationProof ∧ Apart V.E other tx)
    (h : txs.foldlM V.validateTx sh = .ok sh') : sh.Agree (.of V.E tx) sh' := by
  refine foldlM_invariant (fun mid => sh.Agree (.of V.E tx) mid) ?_ (.refl _ _) h
  intro other hMem mid mid' hAgree hStep
  obtain ⟨hProof, hOther⟩ := hApart other hMem
  have hSame := agree_validateTx (Footprint.outside_avoids V.E other) hProof hStep
  exact hAgree.trans (hSame.of_covers hOther.left)

/-- A transaction that passes on its own passes after others that are apart from it. -/
theorem validateTx_after {txs : List Transaction} {sh : Shadow}
    (hProof : tx.type ≠ .equivocationProof)
    (hApart : ∀ other ∈ txs, other.type ≠ .equivocationProof ∧ Apart V.E other tx)
    (h : V.run txs = .ok sh) :
    (∃ sh', V.validateTx {} tx = .ok sh') ↔ ∃ sh', V.validateTx sh tx = .ok sh' := by
  have hAgree := agree_foldlM hApart h
  have hCovers := Footprint.covers_of V.E tx
  constructor
  · rintro ⟨sh', hAlone⟩
    obtain ⟨sh₁, hOk, -⟩ := (validateTx_lockstep hProof hCovers hAgree).exists_ok hAlone
    exact ⟨sh₁, hOk⟩
  · rintro ⟨sh', hAfter⟩
    obtain ⟨sh₁, hOk, -⟩ := (validateTx_lockstep hProof hCovers hAgree.symm).exists_ok hAfter
    exact ⟨sh₁, hOk⟩

/-- An accepted list stays accepted with one more transaction in it that passes on its own and is
apart from the others. -/
theorem run_insert {before after : List Transaction} {sh : Shadow}
    (hProof : tx.type ≠ .equivocationProof)
    (hApart : ∀ other ∈ before ++ after, other.type ≠ .equivocationProof ∧ Apart V.E other tx)
    (h : V.run (before ++ after) = .ok sh) (hAlone : ∃ sh', V.validateTx {} tx = .ok sh') :
    ∃ sh', V.run (before ++ tx :: after) = .ok sh' := by
  obtain ⟨mid, hBefore, hAfter⟩ := foldlM_append_eq_ok.mp h
  obtain ⟨mid', hTx⟩ := (validateTx_after hProof
    (fun other hMem => hApart other (List.mem_append_left _ hMem)) hBefore).mp hAlone
  have hAgree := agree_validateTx (Footprint.outside_avoids V.E tx) hProof hTx
  -- the rest of the list does not see the difference
  have hRest : Lockstep (Shadow.Agree (.outside V.E tx)) (after.foldlM V.validateTx mid)
      (after.foldlM V.validateTx mid') := by
    refine Lockstep.foldlM (fun other hMem a b hab => ?_) hAgree
    obtain ⟨hOther, hCovers⟩ := hApart other (List.mem_append_right _ hMem)
    exact validateTx_lockstep hOther hCovers.right hab
  obtain ⟨sh', hOk, -⟩ := hRest.exists_ok hAfter
  refine ⟨sh', foldlM_append_eq_ok.mpr ⟨mid, hBefore, ?_⟩⟩
  rw [List.foldlM_cons]
  exact bind_eq_ok.mpr ⟨mid', hTx, hOk⟩

/-- Independent transactions pass together exactly if each passes on its own. -/
theorem run_iff_forall {txs : List Transaction} (hIndependent : Independent V.E txs) :
    (∃ sh, V.run txs = .ok sh) ↔ ∀ tx ∈ txs, ∃ sh, V.validateTx {} tx = .ok sh := by
  induction txs using List.reverseRecOn with
  | nil => exact ⟨fun _ tx hTx => absurd hTx List.not_mem_nil, fun _ => ⟨{}, rfl⟩⟩
  | append_singleton before tx ih =>
    obtain ⟨hBefore, -, hLast⟩ := List.pairwise_append.mp hIndependent.apart
    have hApart : ∀ other ∈ before, other.type ≠ .equivocationProof ∧ Apart V.E other tx :=
      fun other hMem => ⟨hIndependent.proofs other (List.mem_append_left _ hMem),
        hLast other hMem tx (List.mem_singleton_self tx)⟩
    have hProof := hIndependent.proofs tx (by simp)
    have ih := ih ⟨hBefore, fun other hMem => (hApart other hMem).1⟩
    constructor
    · rintro ⟨sh', hRun⟩
      obtain ⟨sh, hRest, hTx⟩ := run_concat.mp hRun
      intro other hMem
      rcases List.mem_append.mp hMem with hMem | hMem
      · exact ih.mp ⟨sh, hRest⟩ other hMem
      · obtain rfl := List.mem_singleton.mp hMem
        exact (validateTx_after hProof hApart hRest).mpr ⟨sh', hTx⟩
    · intro hAll
      obtain ⟨sh, hRun⟩ := ih.mpr fun other hMem => hAll other (List.mem_append_left _ hMem)
      obtain ⟨sh', hTx⟩ := (validateTx_after hProof hApart hRun).mp (hAll tx (by simp))
      exact ⟨sh', run_concat.mpr ⟨sh, hRun, hTx⟩⟩

/-- So any selection of them, in any order, passes too. -/
theorem run_of_subperm {txs txs' : List Transaction} (hIndependent : Independent V.E txs)
    (hSub : txs'.Subperm txs) (h : ∃ sh, V.run txs = .ok sh) : ∃ sh, V.run txs' = .ok sh := by
  have hAll := (run_iff_forall hIndependent).mp h
  exact (run_iff_forall (hIndependent.of_subperm hSub)).mpr fun tx hTx =>
    hAll tx (hSub.subset hTx)

end Validation

end Bdns.Blockchain
