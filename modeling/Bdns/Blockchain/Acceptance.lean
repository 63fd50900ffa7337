import Bdns.Blockchain.ValidateBlock

/-!
# What acceptance says

The gates of `ValidateTransactions` read backwards: what is known of a transaction that
passed, and how the shadow maps changed with it. Later modules use these lemmas and do not
unfold the gates.
-/

namespace Bdns.Blockchain

open Lib Index

namespace Validation

variable {V : Validation} {tx : Transaction}

/-! ## One transaction -/

theorem validateTx_eq_ok {sh sh' : Shadow} (h : V.validateTx sh tx = .ok sh') :
    ∃ domains, V.checkForm sh.domains tx = .ok domains ∧
      (tx.ownerKey.length = 0 ∧ V.checkOwnerless domains tx = .ok () ∧
          sh' = { sh with domains } ∨
        tx.ownerKey.length ≠ 0 ∧ ∃ balance balance' domains' coins',
          V.checkFunds sh.coins tx (hexEncode tx.ownerKey) = .ok balance ∧
          V.checkDomainGates domains tx (hexEncode tx.ownerKey) balance =
            .ok (balance', domains') ∧
          V.checkStakeGates sh.coins tx (hexEncode tx.ownerKey) balance' = .ok coins' ∧
          sh' = ⟨domains', coins'⟩) := by
  unfold validateTx at h
  obtain ⟨domains, hForm, h⟩ := bind_eq_ok.mp h
  refine ⟨domains, hForm, ?_⟩
  split at h
  · rename_i hOwnerless
    obtain ⟨_, hCheck, h⟩ := bind_eq_ok.mp h
    exact .inl ⟨hOwnerless, hCheck, (pure_eq_ok.mp h).symm⟩
  · rename_i hSigned
    obtain ⟨balance, hFunds, h⟩ := bind_eq_ok.mp h
    obtain ⟨⟨balance', domains'⟩, hDomains, h⟩ := bind_eq_ok.mp h
    obtain ⟨coins', hStakes, h⟩ := bind_eq_ok.mp h
    exact .inr ⟨hSigned, balance, balance', domains', coins', hFunds, hDomains, hStakes,
      (pure_eq_ok.mp h).symm⟩

theorem run_concat {before : List Transaction} {sh' : Shadow} :
    V.run (before ++ [tx]) = .ok sh' ↔ ∃ sh, V.run before = .ok sh ∧ V.validateTx sh tx = .ok sh' :=
  foldlM_concat_eq_ok

theorem run_singleton {sh : Shadow} : V.run [tx] = .ok sh ↔ V.validateTx {} tx = .ok sh := by
  simp [run]

/-- An accepted list cut at one of its transactions. -/
theorem run_split {txs before after : List Transaction} {sh : Shadow} (h : V.run txs = .ok sh)
    (hSplit : txs = before ++ tx :: after) :
    ∃ sh₁ sh₂, V.run before = .ok sh₁ ∧ V.validateTx sh₁ tx = .ok sh₂ := by
  subst hSplit
  obtain ⟨sh₁, hBefore, hRest⟩ := foldlM_append_eq_ok.mp h
  rw [List.foldlM_cons] at hRest
  obtain ⟨sh₂, hStep, -⟩ := bind_eq_ok.mp hRest
  exact ⟨sh₁, sh₂, hBefore, hStep⟩

/-- Only the slot leader's revocations go without a key. -/
theorem type_of_ownerless {sh sh' : Shadow} (h : V.validateTx sh tx = .ok sh')
    (hKey : tx.ownerKey.length = 0) : tx.type = .revoke := by
  obtain ⟨domains, -, ⟨-, hCheck, -⟩ | ⟨hSigned, -⟩⟩ := validateTx_eq_ok h
  · unfold checkOwnerless at hCheck
    obtain ⟨_, hType, -⟩ := bind_eq_ok.mp hCheck
    exact require_eq_ok.mp hType
  · exact absurd hKey hSigned

/-- The gates on the form that an accepted transaction has passed, with the shadow between
them. -/
structure Formed (V : Validation) (sh : DomainShadow) (tx : Transaction)
    (redeemed sh' : DomainShadow) : Prop where
  signature : 0 < tx.ownerKey.length → verifySignature V.E tx.ownerKey tx = true
  notRegister : tx.type ≠ .register
  redeems : V.checkRedeems sh tx = .ok redeemed
  shape : checkShape tx = .ok ()
  commit : V.checkCommit redeemed tx = .ok sh'

theorem formed_of_checkForm {sh sh' : DomainShadow} (h : V.checkForm sh tx = .ok sh') :
    ∃ redeemed, Formed V sh tx redeemed sh' := by
  unfold checkForm at h
  obtain ⟨_, hSignature, h⟩ := bind_eq_ok.mp h
  obtain ⟨_, -, h⟩ := bind_eq_ok.mp h
  obtain ⟨_, hType, h⟩ := bind_eq_ok.mp h
  obtain ⟨_, -, h⟩ := bind_eq_ok.mp h
  obtain ⟨redeemed, hRedeems, h⟩ := bind_eq_ok.mp h
  obtain ⟨_, hShape, h⟩ := bind_eq_ok.mp h
  obtain ⟨committed, hCommit, h⟩ := bind_eq_ok.mp h
  obtain ⟨_, -, h⟩ := bind_eq_ok.mp h
  obtain rfl := pure_eq_ok.mp h
  exact ⟨redeemed, require_eq_ok.mp hSignature, require_eq_ok.mp hType, hRedeems, hShape, hCommit⟩

/-- A key that is named has signed. -/
theorem verifySignature_of_validateTx {sh sh' : Shadow} (h : V.validateTx sh tx = .ok sh')
    (hKey : tx.ownerKey.length ≠ 0) : verifySignature V.E tx.ownerKey tx = true := by
  obtain ⟨domains, hForm, -⟩ := validateTx_eq_ok h
  obtain ⟨redeemed, hFormed⟩ := formed_of_checkForm hForm
  exact hFormed.signature (Nat.pos_of_ne_zero hKey)

theorem type_ne_register_of_validateTx {sh sh' : Shadow} (h : V.validateTx sh tx = .ok sh') :
    tx.type ≠ .register := by
  obtain ⟨domains, hForm, -⟩ := validateTx_eq_ok h
  obtain ⟨redeemed, hFormed⟩ := formed_of_checkForm hForm
  exact hFormed.notRegister

/-! ## The form of a transaction -/

/-- The numbers redeemed after a transaction. -/
def spentAfter (tx : Transaction) (spent : Int64 → Bool) : Int64 → Bool :=
  if tx.redeemsTxID ≠ 0 ∧ (tx.type = .register ∨ tx.type = .update ∨ tx.type = .renew ∨
      tx.type = .revoke ∨ tx.type = .reveal) then
    Function.update spent tx.redeemsTxID true
  else spent

theorem spentAfter_of_spent {spent : Int64 → Bool} {txID : Int64} (h : spent txID = true) :
    spentAfter tx spent txID = true := by
  unfold spentAfter
  split
  · rw [Function.update_apply, h, ite_self]
  · exact h

/-- The gates on a redeemed transaction mark it as spent and change nothing else. What is redeemed
was not spent. -/
theorem checkRedeems_eq_ok {sh sh' : DomainShadow} (h : V.checkRedeems sh tx = .ok sh') :
    sh' = { sh with spent := spentAfter tx sh.spent } ∧
      (tx.redeemsTxID ≠ 0 →
        tx.type = .update ∨ tx.type = .renew ∨ tx.type = .revoke ∨ tx.type = .reveal →
        sh.spent tx.redeemsTxID = false ∧ V.im.isSpent tx.redeemsTxID = false) := by
  unfold checkRedeems at h
  unfold spentAfter
  split at h
  · rename_i hUses
    rw [if_pos hUses]
    obtain ⟨_, hFresh, h⟩ := bind_eq_ok.mp h
    obtain ⟨_, hUnspent, h⟩ := bind_eq_ok.mp h
    refine ⟨?_, fun _ _ => ⟨require_eq_ok.mp hFresh, require_eq_ok.mp hUnspent⟩⟩
    dsimp only at h
    split at h
    · split at h
      · obtain ⟨_, hThrow, -⟩ := bind_eq_ok.mp h
        exact absurd hThrow (by simp)
      · obtain ⟨_, -, h⟩ := bind_eq_ok.mp h
        exact (pure_eq_ok.mp h).symm
    · exact (pure_eq_ok.mp h).symm
  · rename_i hSkip
    rw [if_neg hSkip]
    exact ⟨(pure_eq_ok.mp h).symm, fun hNumber hType => absurd ⟨hNumber, .inr hType⟩ hSkip⟩

theorem checkCommit_eq_ok {sh sh' : DomainShadow} (h : V.checkCommit sh tx = .ok sh') :
    tx.type ≠ .commit ∧ sh' = sh ∨
      tx.type = .commit ∧ tx.commitHash.length = 32 ∧ sh' = { sh with
        commit := Function.update sh.commit (hexEncode tx.commitHash) true } := by
  unfold checkCommit at h
  split at h
  · rename_i hType
    simp only [bind_eq_ok, require_eq_ok, pure_eq_ok, exists_const] at h
    obtain ⟨-, hLength, -, -, -, -, -, -, rfl⟩ := h
    exact .inr ⟨hType, hLength, rfl⟩
  · rename_i hType
    exact .inl ⟨hType, (pure_eq_ok.mp h).symm⟩

/-- The shadow after the gates on the form, and what they say of redeemed transactions. -/
theorem checkForm_eq_ok {sh sh' : DomainShadow} (h : V.checkForm sh tx = .ok sh') :
    (tx.type = .update ∨ tx.type = .renew ∨ tx.type = .revoke → tx.redeemsTxID ≠ 0) ∧
      ∃ spent, tx.type ≠ .commit ∧ sh' = { sh with spent } ∨
        tx.type = .commit ∧ tx.commitHash.length = 32 ∧ sh' = { sh with
          spent, commit := Function.update sh.commit (hexEncode tx.commitHash) true } := by
  obtain ⟨redeemed, hFormed⟩ := formed_of_checkForm h
  obtain ⟨rfl, -⟩ := checkRedeems_eq_ok hFormed.redeems
  have hShape := hFormed.shape
  simp only [checkShape, bind_eq_ok, require_eq_ok, exists_const] at hShape
  exact ⟨hShape.2.2.2.2, spentAfter tx sh.spent, checkCommit_eq_ok hFormed.commit⟩

theorem spent_eq_of_checkForm {sh sh' : DomainShadow} (h : V.checkForm sh tx = .ok sh') :
    sh'.spent = spentAfter tx sh.spent := by
  obtain ⟨redeemed, hFormed⟩ := formed_of_checkForm h
  obtain ⟨rfl, -⟩ := checkRedeems_eq_ok hFormed.redeems
  obtain ⟨-, rfl⟩ | ⟨-, -, rfl⟩ := checkCommit_eq_ok hFormed.commit <;> rfl

theorem redeems_of_validateTx {sh sh' : Shadow} (h : V.validateTx sh tx = .ok sh')
    (hType : tx.type = .update ∨ tx.type = .renew ∨ tx.type = .revoke) : tx.redeemsTxID ≠ 0 := by
  obtain ⟨domains, hForm, -⟩ := validateTx_eq_ok h
  exact (checkForm_eq_ok hForm).1 hType

theorem isSpent_of_validateTx {sh sh' : Shadow} (h : V.validateTx sh tx = .ok sh')
    (hType : tx.type = .update ∨ tx.type = .renew ∨ tx.type = .revoke) :
    V.im.isSpent tx.redeemsTxID = false := by
  have hRedeems := redeems_of_validateTx h hType
  obtain ⟨domains, hForm, -⟩ := validateTx_eq_ok h
  obtain ⟨redeemed, hFormed⟩ := formed_of_checkForm hForm
  refine ((checkRedeems_eq_ok hFormed.redeems).2 hRedeems ?_).2
  rcases hType with hType | hType | hType
  · exact .inl hType
  · exact .inr (.inl hType)
  · exact .inr (.inr (.inl hType))

/-! ## Commits and reveals -/

/-- What the gates R1 to R4b have seen: the pending record that a REVEAL opens. -/
structure Opens (V : Validation) (tx : Transaction) (rec : CommitRecord) : Prop where
  pending : V.cs.getCommit (revealKey V.E tx) = some rec
  tid : tx.redeemsTxID = rec.commitTID
  key : tx.ownerKey = rec.committerPK
  delay : ¬ V.currentSlot - rec.commitSlot < commitMinDelay
  free : ∀ existing, V.im.getDomain tx.domainName = some existing →
    V.phaseOf existing = .purged ∧
      computePurgeSlot existing.expirySlot V.slotsPerDay ≤ rec.commitSlot

theorem checkReveal_eq_ok {sh sh' : DomainShadow} (h : V.checkReveal sh tx = .ok sh')
    (hType : tx.type = .reveal) :
    ∃ rec, Opens V tx rec ∧ sh.commit (revealKey V.E tx) = false ∧
      sh' = { sh with
        commit := Function.update sh.commit (revealKey V.E tx) true
        registered := Function.update sh.registered tx.domainName true
        owner := Function.update sh.owner tx.domainName (some (hexEncode tx.recipient)) } := by
  unfold checkReveal at h
  rw [if_pos hType] at h
  obtain ⟨_, -, h⟩ := bind_eq_ok.mp h
  obtain ⟨_, -, h⟩ := bind_eq_ok.mp h
  obtain ⟨_, -, h⟩ := bind_eq_ok.mp h
  dsimp only at h
  split at h
  · exact absurd h (by simp)
  · rename_i rec hPending
    obtain ⟨_, hFresh, h⟩ := bind_eq_ok.mp h
    obtain ⟨_, hTid, h⟩ := bind_eq_ok.mp h
    obtain ⟨_, hKey, h⟩ := bind_eq_ok.mp h
    obtain ⟨_, hDelay, h⟩ := bind_eq_ok.mp h
    obtain ⟨_, -, h⟩ := bind_eq_ok.mp h
    refine ⟨rec, ⟨hPending, require_eq_ok.mp hTid, require_eq_ok.mp hKey,
      require_eq_ok.mp hDelay, fun existing hExisting => ?_⟩, require_eq_ok.mp hFresh, ?_⟩
    · rw [hExisting] at h
      simp only [bind_eq_ok, require_eq_ok, exists_const] at h
      exact ⟨h.1, Int64.not_lt.mp h.2.1⟩
    · split at h
      · exact (pure_eq_ok.mp h).symm
      · obtain ⟨_, -, h⟩ := bind_eq_ok.mp h
        obtain ⟨_, -, h⟩ := bind_eq_ok.mp h
        exact (pure_eq_ok.mp h).symm

theorem reveal_of_validateTx {sh sh' : Shadow} (h : V.validateTx sh tx = .ok sh')
    (hType : tx.type = .reveal) : ∃ rec, Opens V tx rec := by
  obtain ⟨domains, -, ⟨hKey, -⟩ | ⟨-, b₁, b₂, domains', coins', -, hDomains, -⟩⟩ :=
    validateTx_eq_ok h
  · exact absurd ((type_of_ownerless h hKey).symm.trans hType) (by decide)
  · unfold checkDomainGates at hDomains
    obtain ⟨⟨_, _⟩, -, hDomains⟩ := bind_eq_ok.mp hDomains
    obtain ⟨_, -, hDomains⟩ := bind_eq_ok.mp hDomains
    obtain ⟨_, -, hDomains⟩ := bind_eq_ok.mp hDomains
    obtain ⟨_, -, hDomains⟩ := bind_eq_ok.mp hDomains
    obtain ⟨_, -, hDomains⟩ := bind_eq_ok.mp hDomains
    obtain ⟨_, hReveal, -⟩ := bind_eq_ok.mp hDomains
    obtain ⟨rec, hOpens, -⟩ := checkReveal_eq_ok hReveal hType
    exact ⟨rec, hOpens⟩

/-! ## Equivocation proofs -/

/-- What the gate on an EQUIVOCATION_PROOF has looked at. -/
structure Evidence (V : Validation) (sh : CoinShadow) (tx : Transaction) (blockA blockB : Block) :
    Prop where
  nonempty : tx.equivBlockA ≠ []
  decodeA : deserializeBlock V.E tx.equivBlockA = .ok blockA
  decodeB : deserializeBlock V.E tx.equivBlockB = .ok blockB
  sameIndex : blockA.index = blockB.index
  sameLeader : blockA.slotLeader = blockB.slotLeader
  hashesDiffer : blockA.hash ≠ blockB.hash
  signedA : blockA.verifyBlock V.E blockA.slotLeader = true
  signedB : blockB.verifyBlock V.E blockB.slotLeader = true
  unpunished : V.slashedEvidence (offenseKey blockA) = false
  fresh : sh.equivocations (offenseKey blockA) = false

theorem checkEquivocation_eq_ok {sh sh' : CoinShadow} (h : V.checkEquivocation sh tx = .ok sh') :
    (tx.type ≠ .equivocationProof ∧ sh' = sh) ∨
      tx.type = .equivocationProof ∧ ∃ blockA blockB, Evidence V sh tx blockA blockB ∧
        sh' = { V.slashShadow sh (hexEncode blockA.slotLeader) with
          equivocations := Function.update
            (V.slashShadow sh (hexEncode blockA.slotLeader)).equivocations
            (offenseKey blockA) true } := by
  unfold checkEquivocation at h
  split at h
  · rename_i hType
    refine .inr ⟨hType, ?_⟩
    obtain ⟨_, hNonempty, h⟩ := bind_eq_ok.mp h
    obtain ⟨_, -, h⟩ := bind_eq_ok.mp h
    obtain ⟨blockA, hA, h⟩ := bind_eq_ok.mp h
    obtain ⟨blockB, hB, h⟩ := bind_eq_ok.mp h
    obtain ⟨_, hIndex, h⟩ := bind_eq_ok.mp h
    obtain ⟨_, hLeader, h⟩ := bind_eq_ok.mp h
    obtain ⟨_, hHash, h⟩ := bind_eq_ok.mp h
    obtain ⟨_, hSigned, h⟩ := bind_eq_ok.mp h
    obtain ⟨_, hFresh, h⟩ := bind_eq_ok.mp h
    obtain ⟨_, -, h⟩ := bind_eq_ok.mp h
    rw [require_eq_ok] at hNonempty hIndex hLeader hHash hSigned hFresh
    exact ⟨blockA, blockB,
      ⟨hNonempty.1, liftGo_eq_ok.mp hA, liftGo_eq_ok.mp hB, hIndex, hexEncode_injective hLeader,
        hHash, hSigned.1, hSigned.2, hFresh.1, hFresh.2⟩, (pure_eq_ok.mp h).symm⟩
  · rename_i hType
    exact .inl ⟨hType, (pure_eq_ok.mp h).symm⟩

/-! ## Coins -/

/-- The coins that a FUND hands over. -/
def funded (tx : Transaction) : Nat := if tx.type = .fund then tx.listPrice.toNat else 0

/-- The coins that a STAKE locks. -/
def bonded (tx : Transaction) : Nat := if tx.type = .stake then tx.stakeAmount.toNat else 0

/-- The price of a domain that validation knows. -/
def currentPrice (V : Validation) (sh : DomainShadow) (domain : Bytes) : UInt64 :=
  (sh.forSale domain).getD (V.im.getListPrice domain)

/-- The coins that validation takes from the buyer in a BUY. -/
def bought (V : Validation) (sh : DomainShadow) (tx : Transaction) : Nat :=
  if tx.type = .buy then (V.currentPrice sh tx.domainName).toNat else 0

theorem bought_checkForm {sh sh' : DomainShadow} (h : V.checkForm sh tx = .ok sh') :
    V.bought sh' tx = V.bought sh tx := by
  obtain ⟨-, spent, ⟨-, rfl⟩ | ⟨-, -, rfl⟩⟩ := checkForm_eq_ok h <;> rfl

theorem toNat_sub_add {a b : UInt64} (h : b ≤ a) : (a - b).toNat + b.toNat = a.toNat := by
  rw [UInt64.toNat_sub_of_le _ _ h]
  have := UInt64.le_iff_toNat_le.mp h
  omega

/-- The gates on fee, FUND and nonce, with the balance that they leave. -/
theorem checkFunds_eq_ok {sh : CoinShadow} {k : Bytes} {balance : UInt64}
    (h : V.checkFunds sh tx k = .ok balance) :
    1 ≤ tx.fee ∧ (tx.type = .fund → tx.listPrice ≠ 0 ∧ tx.recipient ≠ []) ∧
      tx.nonce = V.runningNonce sh k ∧
      balance.toNat + tx.fee.toNat + funded tx = (V.runningBalance sh k).toNat := by
  unfold checkFunds at h
  obtain ⟨_, hFee, h⟩ := bind_eq_ok.mp h
  rw [requireNaming_eq_ok] at hFee
  by_cases hType : tx.type = .fund
  · simp only [hType, if_true, bind_eq_ok, requireNaming_eq_ok, require_eq_ok, pure_eq_ok,
      exists_const] at h
    obtain ⟨-, hFund, hNoWrap, hCovered, hFeeCovered, hNonce, rfl⟩ := h
    refine ⟨hFee, fun _ => hFund, hNonce, ?_⟩
    -- the sum of fee and amount did not wrap around
    have hSum : (tx.fee + tx.listPrice).toNat = tx.fee.toNat + tx.listPrice.toNat := by
      rw [UInt64.toNat_add]
      refine Nat.mod_eq_of_lt ?_
      by_contra hWrap
      refine hNoWrap (.inl ?_)
      rw [UInt64.lt_iff_toNat_lt, UInt64.toNat_add]
      have := tx.fee.toNat_lt
      have := tx.listPrice.toNat_lt
      omega
    have hLe := UInt64.le_iff_toNat_le.mp hCovered
    have hFirst := toNat_sub_add hFeeCovered
    have hSecond := toNat_sub_add (a := V.runningBalance sh k - tx.fee) (b := tx.listPrice)
      (UInt64.le_iff_toNat_le.mpr (by omega))
    simp only [funded, hType, if_true]
    omega
  · simp only [hType, if_false, bind_eq_ok, requireNaming_eq_ok, pure_eq_ok, exists_const] at h
    obtain ⟨hFeeCovered, hNonce, rfl⟩ := h
    refine ⟨hFee, fun hFund => absurd hFund hType, hNonce, ?_⟩
    simp only [funded, hType, if_false]
    exact toNat_sub_add hFeeCovered

/-- The gates on domains only take the price of a BUY. -/
theorem balance_checkDomainGates {sh sh' : DomainShadow} {k : Bytes} {balance balance' : UInt64}
    (h : V.checkDomainGates sh tx k balance = .ok (balance', sh')) :
    balance'.toNat + V.bought sh tx = balance.toNat := by
  unfold checkDomainGates at h
  obtain ⟨⟨b, sh₁⟩, hBuy, h⟩ := bind_eq_ok.mp h
  have hResult : b = balance' := by
    obtain ⟨sh₂, -, h⟩ := bind_eq_ok.mp h
    obtain ⟨_, -, h⟩ := bind_eq_ok.mp h
    obtain ⟨_, -, h⟩ := bind_eq_ok.mp h
    obtain ⟨sh₃, -, h⟩ := bind_eq_ok.mp h
    obtain ⟨sh₄, -, h⟩ := bind_eq_ok.mp h
    obtain ⟨sh₅, -, h⟩ := bind_eq_ok.mp h
    exact congrArg Prod.fst (pure_eq_ok.mp h)
  subst hResult
  unfold checkBuy at hBuy
  unfold bought
  split at hBuy
  · rename_i hType
    obtain ⟨_, -, hBuy⟩ := bind_eq_ok.mp hBuy
    obtain ⟨_, hCovered, hBuy⟩ := bind_eq_ok.mp hBuy
    obtain ⟨_, -, hBuy⟩ := bind_eq_ok.mp hBuy
    obtain ⟨_, -, hBuy⟩ := bind_eq_ok.mp hBuy
    rw [requireNaming_eq_ok] at hCovered
    obtain ⟨rfl, -⟩ := Prod.mk.inj (pure_eq_ok.mp hBuy)
    rw [if_pos hType]
    exact toNat_sub_add hCovered
  · rename_i hType
    obtain ⟨rfl, -⟩ := Prod.mk.inj (pure_eq_ok.mp hBuy)
    rw [if_neg hType]
    rfl

/-- What one accepted transaction of a key does to the shadow of stakes. -/
inductive StakeStep (V : Validation) (sh : CoinShadow) (tx : Transaction) : CoinShadow → Prop
  | stake (hType : tx.type = .stake) (hPositive : tx.stakeAmount ≠ 0) :
      StakeStep V sh tx { sh with
        stake := Function.update sh.stake (hexEncode tx.ownerKey)
          (some (V.runningStake sh (hexEncode tx.ownerKey) + tx.stakeAmount)) }
  | unstake (hType : tx.type = .unstake)
      (hCovered : tx.stakeAmount ≤ V.runningStake sh (hexEncode tx.ownerKey)) :
      StakeStep V sh tx { sh with
        stake := Function.update sh.stake (hexEncode tx.ownerKey)
          (some (V.runningStake sh (hexEncode tx.ownerKey) - tx.stakeAmount))
        pendingStake := Function.update sh.pendingStake (hexEncode tx.ownerKey)
          (sh.pendingStake (hexEncode tx.ownerKey) + tx.stakeAmount) }
  | proof (hType : tx.type = .equivocationProof) (blockA blockB : Block)
      (evidence : Evidence V sh tx blockA blockB) :
      StakeStep V sh tx { V.slashShadow sh (hexEncode blockA.slotLeader) with
        equivocations := Function.update
          (V.slashShadow sh (hexEncode blockA.slotLeader)).equivocations
          (offenseKey blockA) true }
  | other (hStake : tx.type ≠ .stake) (hUnstake : tx.type ≠ .unstake)
      (hProof : tx.type ≠ .equivocationProof) : StakeStep V sh tx sh

theorem StakeStep.balance_eq {sh mid : CoinShadow} (hStep : StakeStep V sh tx mid) :
    mid.balance = sh.balance := by
  cases hStep with
  | proof =>
    unfold slashShadow
    dsimp only
    split <;> rfl
  | _ => rfl

theorem StakeStep.nonce_eq {sh mid : CoinShadow} (hStep : StakeStep V sh tx mid) :
    mid.nonce = sh.nonce := by
  cases hStep with
  | proof =>
    unfold slashShadow
    dsimp only
    split <;> rfl
  | _ => rfl

theorem checkStake_eq_ok {sh sh' : CoinShadow} {k : Bytes} {balance balance' : UInt64}
    (h : V.checkStake sh tx k balance = .ok (balance', sh')) :
    balance'.toNat + bonded tx = balance.toNat ∧
      (tx.type ≠ .stake ∧ sh' = sh ∨
        tx.type = .stake ∧ tx.stakeAmount ≠ 0 ∧ sh' = { sh with
          stake := Function.update sh.stake k (some (V.runningStake sh k + tx.stakeAmount)) }) := by
  unfold checkStake at h
  split at h
  · rename_i hType
    obtain ⟨_, hPositive, h⟩ := bind_eq_ok.mp h
    obtain ⟨_, -, h⟩ := bind_eq_ok.mp h
    obtain ⟨_, -, h⟩ := bind_eq_ok.mp h
    obtain ⟨_, hCovered, h⟩ := bind_eq_ok.mp h
    rw [require_eq_ok] at hPositive
    rw [requireNaming_eq_ok] at hCovered
    obtain ⟨rfl, rfl⟩ := Prod.mk.inj (pure_eq_ok.mp h)
    refine ⟨?_, .inr ⟨hType, hPositive, rfl⟩⟩
    simpa [bonded, hType] using toNat_sub_add hCovered
  · rename_i hType
    obtain ⟨rfl, rfl⟩ := Prod.mk.inj (pure_eq_ok.mp h)
    exact ⟨by simp [bonded, hType], .inl ⟨hType, rfl⟩⟩

theorem checkUnstake_eq_ok {sh sh' : CoinShadow} {k : Bytes}
    (h : V.checkUnstake sh tx k = .ok sh') :
    tx.type ≠ .unstake ∧ sh' = sh ∨
      tx.type = .unstake ∧ tx.stakeAmount ≤ V.runningStake sh k ∧ sh' = { sh with
        stake := Function.update sh.stake k (some (V.runningStake sh k - tx.stakeAmount))
        pendingStake := Function.update sh.pendingStake k
          (sh.pendingStake k + tx.stakeAmount) } := by
  unfold checkUnstake at h
  split at h
  · rename_i hType
    obtain ⟨_, -, h⟩ := bind_eq_ok.mp h
    obtain ⟨_, hCovered, h⟩ := bind_eq_ok.mp h
    obtain ⟨_, -, h⟩ := bind_eq_ok.mp h
    exact .inr ⟨hType, require_eq_ok.mp hCovered, (pure_eq_ok.mp h).symm⟩
  · rename_i hType
    exact .inl ⟨hType, (pure_eq_ok.mp h).symm⟩

theorem checkStakeGates_eq_ok {sh sh' : CoinShadow} {balance : UInt64}
    (h : V.checkStakeGates sh tx (hexEncode tx.ownerKey) balance = .ok sh') :
    ∃ balance' mid, StakeStep V sh tx mid ∧ balance'.toNat + bonded tx = balance.toNat ∧
      sh' = { mid with
        nonce := Function.update mid.nonce (hexEncode tx.ownerKey)
          (some (V.runningNonce sh (hexEncode tx.ownerKey) + 1))
        balance := Function.update mid.balance (hexEncode tx.ownerKey) (some balance') } := by
  unfold checkStakeGates at h
  obtain ⟨⟨balance', sh₁⟩, hStake, h⟩ := bind_eq_ok.mp h
  obtain ⟨sh₂, hUnstake, h⟩ := bind_eq_ok.mp h
  obtain ⟨sh₃, hProof, h⟩ := bind_eq_ok.mp h
  obtain ⟨hBalance, hStake⟩ := checkStake_eq_ok hStake
  refine ⟨balance', sh₃, ?_, hBalance, (pure_eq_ok.mp h).symm⟩
  obtain ⟨hNotStake, rfl⟩ | ⟨hType, hPositive, rfl⟩ := hStake
  · obtain ⟨hNotUnstake, rfl⟩ | ⟨hType, hCovered, rfl⟩ := checkUnstake_eq_ok hUnstake
    · obtain ⟨hNotProof, rfl⟩ | ⟨hType, blockA, blockB, hEvidence, rfl⟩ :=
        checkEquivocation_eq_ok hProof
      · exact .other hNotStake hNotUnstake hNotProof
      · exact .proof hType blockA blockB hEvidence
    · obtain ⟨-, rfl⟩ | ⟨hOther, -⟩ := checkEquivocation_eq_ok hProof
      · exact .unstake hType hCovered
      · exact absurd (hType.symm.trans hOther) (by decide)
  · obtain ⟨-, rfl⟩ | ⟨hOther, -⟩ := checkUnstake_eq_ok hUnstake
    · obtain ⟨-, rfl⟩ | ⟨hOther, -⟩ := checkEquivocation_eq_ok hProof
      · exact .stake hType hPositive
      · exact absurd (hType.symm.trans hOther) (by decide)
    · exact absurd (hType.symm.trans hOther) (by decide)

/-- The shadow of coins after one accepted transaction: untouched by a revocation of the slot
leader, else the sender has paid out of its shadow balance. -/
theorem coins_of_validateTx {sh sh' : Shadow} (h : V.validateTx sh tx = .ok sh') :
    tx.ownerKey.length = 0 ∧ tx.type = .revoke ∧ sh'.coins = sh.coins ∨
      tx.ownerKey.length ≠ 0 ∧ 1 ≤ tx.fee ∧
        (tx.type = .fund → tx.listPrice ≠ 0 ∧ tx.recipient ≠ []) ∧
        tx.nonce = V.runningNonce sh.coins (hexEncode tx.ownerKey) ∧
        ∃ balance mid, StakeStep V sh.coins tx mid ∧
          balance.toNat + tx.fee.toNat + funded tx + V.bought sh.domains tx + bonded tx =
            (V.runningBalance sh.coins (hexEncode tx.ownerKey)).toNat ∧
          sh'.coins = { mid with
            nonce := Function.update mid.nonce (hexEncode tx.ownerKey)
              (some (V.runningNonce sh.coins (hexEncode tx.ownerKey) + 1))
            balance := Function.update mid.balance (hexEncode tx.ownerKey) (some balance) } := by
  obtain ⟨domains, hForm, ⟨hKey, -, rfl⟩ |
    ⟨hKey, b₁, b₂, domains', coins', hFunds, hDomains, hStakes, rfl⟩⟩ := validateTx_eq_ok h
  · exact .inl ⟨hKey, type_of_ownerless h hKey, rfl⟩
  · obtain ⟨hFee, hFund, hNonce, hPaid⟩ := checkFunds_eq_ok hFunds
    have hBuy := balance_checkDomainGates hDomains
    rw [bought_checkForm hForm] at hBuy
    obtain ⟨balance, mid, hStep, hBonded, rfl⟩ := checkStakeGates_eq_ok hStakes
    exact .inr ⟨hKey, hFee, hFund, hNonce, balance, mid, hStep, by omega, rfl⟩

/-! ## Running balances and nonces -/

/-- What validation takes from the sender of a transaction. -/
def expense (V : Validation) (sh : DomainShadow) (tx : Transaction) : Nat :=
  if tx.ownerKey.length = 0 then 0
  else tx.fee.toNat + funded tx + V.bought sh tx + bonded tx

theorem runningBalance_of_validateTx {sh sh' : Shadow} (h : V.validateTx sh tx = .ok sh')
    (k : Bytes) :
    (V.runningBalance sh'.coins k).toNat +
        (if hexEncode tx.ownerKey = k then V.expense sh.domains tx else 0) =
      (V.runningBalance sh.coins k).toNat := by
  unfold expense
  obtain ⟨hKey, -, hCoins⟩ | ⟨hKey, -, -, -, balance, mid, hStep, hCost, hCoins⟩ :=
    coins_of_validateTx h
  · rw [hCoins, if_pos hKey, ite_self]
    rfl
  · rw [hCoins, if_neg hKey]
    by_cases hk : hexEncode tx.ownerKey = k
    · subst hk
      simp only [runningBalance, Function.update_self, Option.getD_some, if_true]
      simp only [runningBalance] at hCost
      omega
    · simp only [runningBalance, Function.update_of_ne (Ne.symm hk), hStep.balance_eq, if_neg hk]
      rfl

/-- A transaction with a key carries the running nonce of the key and moves it on by one. -/
theorem runningNonce_of_validateTx {sh sh' : Shadow} (h : V.validateTx sh tx = .ok sh') :
    (tx.ownerKey.length ≠ 0 → tx.nonce = V.runningNonce sh.coins (hexEncode tx.ownerKey)) ∧
      ∀ k, V.runningNonce sh'.coins k =
        if tx.ownerKey.length ≠ 0 ∧ hexEncode tx.ownerKey = k then V.runningNonce sh.coins k + 1
        else V.runningNonce sh.coins k := by
  obtain ⟨hKey, -, hCoins⟩ | ⟨hKey, -, -, hNonce, balance, mid, hStep, -, hCoins⟩ :=
    coins_of_validateTx h
  · refine ⟨fun hSigned => absurd hKey hSigned, fun k => ?_⟩
    rw [hCoins, if_neg fun hSigned => hSigned.1 hKey]
  · refine ⟨fun _ => hNonce, fun k => ?_⟩
    rw [hCoins]
    by_cases hk : hexEncode tx.ownerKey = k
    · subst hk
      rw [if_pos ⟨hKey, rfl⟩]
      simp only [runningNonce, Function.update_self, Option.getD_some]
    · rw [if_neg fun hSigned => hk hSigned.2]
      simp only [runningNonce, Function.update_of_ne (Ne.symm hk), hStep.nonce_eq]

end Validation

end Bdns.Blockchain
