import Bdns.Blockchain.DomainGate
import Bdns.Safety.Ownership
import Bdns.Safety.Solvency

/-!
# When accepted transactions take effect

Validation and application look at the same block through different eyes: validation at the
index before the block and a set of shadow maps, application at the overlay that the earlier
transactions of the block have changed. The two agree on owners, prices, pending commits and
coins through every accepted list. They need not agree on the phase of a domain and on the
transaction that is redeemed, and an accepted transaction takes effect exactly where it finds
these two as its operation needs them.
-/

namespace Bdns.Safety

open Lib Blockchain Network Index Validation

/-! ## What application asks for beyond validation -/

section Ready

variable (E : External) (pos : Position) (tx : Transaction) (st : DomainState)

/-- The domain is in the phase that the operation needs, and a redeemed transaction is found
under the domain's name. -/
def Ready : Prop :=
  match tx.type with
  | .reveal => phaseOutside E pos tx st (· == .purged) = none
  | .update => phaseOutside E pos tx st (· == .active) = none ∧ redeemsOwnDomain pos tx st = true
  | .renew => phaseOutside E pos tx st (· != .purged) = none ∧ redeemsOwnDomain pos tx st = true
  | .revoke => (tx.redeemsTxID ≠ 0 → redeemsOwnDomain pos tx st = true) ∧
      (tx.ownerKey.length = 0 → ∃ existingTx, st.im.getDomain E tx.domainName = some existingTx ∧
        getDomainPhase pos.currentSlot existingTx.expirySlot pos.slotsPerDay ≠ .active)
  | .list | .delist | .buy | .transfer => inActivePhase E pos tx st = .ok true
  | _ => True

variable {E pos tx st}

/-- What takes effect was ready. -/
theorem ready_of_effect {st' : DomainState} (h : DomainEffect E pos tx st st' none) :
    Ready E pos tx st := by
  unfold Ready
  cases h with
  | skipped hType => rcases hType with h | h | h | h | ⟨code, hCode, h⟩ <;> simp [h]
  | registered hType => simp [hType]
  | committed hType => simp [hType]
  | revealed hType rec hCommit hFree => simpa [hType] using hFree
  | revoked hType hOwner hRedeems hAuto =>
    rw [hType]
    exact ⟨hRedeems, hAuto⟩
  | updated hType hOwner hActive hRedeems hOwn =>
    rw [hType]
    exact ⟨hActive, hOwn⟩
  | renewed hType hUnpurged hRedeems hOwn =>
    rw [hType]
    exact ⟨hUnpurged, hOwn⟩
  | listed hType hActive => simpa [hType] using hActive
  | delisted hType hActive => simpa [hType] using hActive
  | bought hType hActive => simpa [hType] using hActive
  | transferred hType hActive => simpa [hType] using hActive

end Ready

/-! ## The shadow maps follow the overlay -/

/-- The shadow maps of owners, prices and used commits agree with the state that application has
reached. -/
structure Tracks (V : Validation) (owner : Bytes → Option Bytes) (forSale : Bytes → Option UInt64)
    (commit : Bytes → Bool) (st : DomainState) : Prop where
  owner : ∀ d, (owner d).getD (((V.im.getOwner d).map hexEncode).getD []) =
    ((st.im.getOwner V.E d).map hexEncode).getD []
  price : ∀ d, (forSale d).getD (V.im.getListPrice d) = st.im.getListPrice V.E d
  commit : ∀ key rec, commit key = false → V.cs.getCommit key = some rec →
    st.cs.getCommit key = some rec

section Tracks

variable {V : Validation} {owner : Bytes → Option Bytes} {forSale : Bytes → Option UInt64}
  {commit : Bytes → Bool} {st st' : DomainState} {d : Bytes}

/-- A write of an owner to shadow and overlay. -/
theorem Tracks.setOwner (h : Tracks V owner forSale commit st) {key : Bytes}
    (hOwner : ∀ d', st'.im.getOwner V.E d' =
      if d = d' then some key else st.im.getOwner V.E d')
    (hPrice : ∀ d', st'.im.getListPrice V.E d' = st.im.getListPrice V.E d')
    (hCommit : st'.cs = st.cs) :
    Tracks V (Function.update owner d (some (hexEncode key))) forSale commit st' where
  owner d' := by
    rw [hOwner]
    by_cases hd : d = d'
    · subst hd
      simp
    · rw [if_neg hd, Function.update_of_ne (Ne.symm hd)]
      exact h.owner d'
  price d' := by rw [hPrice, h.price]
  commit := hCommit ▸ h.commit

/-- A write of a price to shadow and overlay. -/
theorem Tracks.setListPrice (h : Tracks V owner forSale commit st) (price : UInt64) :
    Tracks V owner (Function.update forSale d (some price)) commit
      { st with im := st.im.setListPrice V.E d price } where
  owner d' := by rw [IndexOverlay.getOwner_setListPrice, h.owner]
  price d' := by
    rw [IndexOverlay.getListPrice_setListPrice]
    by_cases hd : d = d'
    · subst hd
      simp
    · rw [if_neg hd, Function.update_of_ne (Ne.symm hd)]
      exact h.price d'
  commit := h.commit

/-- A change that keeps owners, prices and commits. -/
theorem Tracks.of_same (h : Tracks V owner forSale commit st)
    (hOwner : ∀ d', st'.im.getOwner V.E d' = st.im.getOwner V.E d')
    (hPrice : ∀ d', st'.im.getListPrice V.E d' = st.im.getListPrice V.E d')
    (hCommit : st'.cs = st.cs) : Tracks V owner forSale commit st' where
  owner d' := by rw [hOwner, h.owner]
  price d' := by rw [hPrice, h.price]
  commit := hCommit ▸ h.commit

/-- The owner that validation has found is the owner in the overlay. -/
theorem Tracks.getOwner_eq_some {sh : DomainShadow} (h : Tracks V sh.owner sh.forSale sh.commit st)
    {key : Bytes} (hKey : key.length ≠ 0) (hOwner : V.currentOwner sh d = hexEncode key) :
    st.im.getOwner V.E d = some key := by
  have hSame : ((st.im.getOwner V.E d).map hexEncode).getD [] = hexEncode key :=
    (h.owner d).symm.trans hOwner
  cases hGet : st.im.getOwner V.E d with
  | none =>
    rw [hGet] at hSame
    have hNil : hexEncode ([] : Bytes) = hexEncode key := hSame
    rw [← hexEncode_injective hNil] at hKey
    exact absurd rfl hKey
  | some existingOwner =>
    rw [hGet] at hSame
    exact congrArg some (hexEncode_injective hSame)

theorem isForSale_of_isListed {sh : DomainShadow} (h : Tracks V sh.owner sh.forSale sh.commit st)
    (hSale : ∀ d, V.im.isForSale d = decide (0 < V.im.getListPrice d))
    (hListed : V.isListed sh d = true) : st.im.isForSale V.E d = true := by
  rw [IndexOverlay.isForSale_eq, ← h.price d]
  unfold isListed at hListed
  cases hShadow : sh.forSale d with
  | none =>
    rw [hShadow] at hListed
    rwa [hSale] at hListed
  | some price =>
    rw [hShadow] at hListed
    exact hListed

end Tracks

/-! ## One transaction -/

/-- The coins of the domain pass: at most the price of a BUY leaves an account, and no coins are
created. -/
structure Collects (V : Validation) (sh : DomainShadow) (tx : Transaction)
    (ledger ledger' : BalanceLedger) : Prop where
  supply : ledger'.supply ≤ ledger.supply
  balance : ∀ k, (ledger.getBalance k).toNat ≤ (ledger'.getBalance k).toNat +
    if hexEncode tx.ownerKey = k then V.bought sh tx else 0

theorem collects_refl (V : Validation) (sh : DomainShadow) (tx : Transaction)
    (ledger : BalanceLedger) : Collects V sh tx ledger ledger :=
  ⟨Nat.le_refl _, fun _ => Nat.le_add_right _ _⟩

section Step

variable {V : Validation} {sh : DomainShadow} {tx : Transaction} {pos : Position}
  {st : DomainState}

theorem collects_of_buy (hType : tx.type = .buy) {price : UInt64}
    (hPrice : V.currentPrice sh tx.domainName = price) {ledger paid : BalanceLedger}
    (hPaid : ledger.debit (hexEncode tx.ownerKey) price = .ok (.ok paid))
    (hFit : ledger.supply < 2 ^ 64) (seller : Bytes) :
    Collects V sh tx ledger (paid.credit seller price) := by
  obtain ⟨hEnough, hSelf, hOthers, -, hSupply⟩ := BalanceLedger.debit_ok hPaid
  have hBought : V.bought sh tx = price.toNat := by rw [bought, if_pos hType, hPrice]
  have hFit' : paid.supply + price.toNat < 2 ^ 64 := by omega
  refine ⟨by rw [BalanceLedger.supply_credit _ _ _ hFit']; omega, fun k => ?_⟩
  rw [toNat_getBalance_credit hFit', hBought]
  by_cases hk : hexEncode tx.ownerKey = k
  · subst hk
    have hSub := toNat_sub_add hEnough
    rw [hSelf, if_pos rfl]
    omega
  · rw [hOthers k hk]
    omega

/-- The transaction takes effect, and the shadow maps that validation goes on with agree with the
state after it. -/
def TakesHold (V : Validation) (sh : DomainShadow) (tx : Transaction) (pos : Position)
    (st : DomainState) (owner' : Bytes → Option Bytes) (forSale' : Bytes → Option UInt64)
    (commit' : Bytes → Bool) : Prop :=
  ∃ st', applyDomainMutations V.E pos tx st = .ok (st', none) ∧
    Tracks V owner' forSale' commit' st' ∧ Collects V sh tx st.ledger st'.ledger

variable (h : Tracks V sh.owner sh.forSale sh.commit st) (hReady : Ready V.E pos tx st)

include h

theorem takesHold_commit (hType : tx.type = .commit) (hLength : tx.commitHash.length = 32) :
    TakesHold V sh tx pos st sh.owner sh.forSale
      (Function.update sh.commit (hexEncode tx.commitHash) true) := by
  have hLong : ¬ (hexEncode tx.commitHash).length < 16 := by
    rw [length_hexEncode, hLength]
    decide
  unfold TakesHold applyDomainMutations
  rw [hType]
  dsimp only
  rw [applyCommit, if_neg hLong]
  refine ⟨_, rfl, ⟨h.owner, h.price, fun key rec hFresh hPending => ?_⟩, collects_refl ..⟩
  rw [Function.update_apply] at hFresh
  split at hFresh
  · exact absurd hFresh (by simp)
  · rename_i hKey
    dsimp only
    rw [CommitOverlay.getCommit_addCommit, if_neg fun hSame => hKey hSame.1.symm]
    exact h.commit key rec hFresh hPending

theorem takesHold_other (hType : tx.type = .fund ∨ tx.type = .stake ∨ tx.type = .unstake ∨
      tx.type = .equivocationProof ∨ ∃ code hCode, tx.type = .other code hCode) :
    TakesHold V sh tx pos st sh.owner sh.forSale sh.commit := by
  refine ⟨st, ?_, h, collects_refl ..⟩
  unfold applyDomainMutations
  rcases hType with hType | hType | hType | hType | ⟨code, hCode, hType⟩ <;> rw [hType] <;> rfl

include hReady

theorem takesHold_reveal (hType : tx.type = .reveal) {rec : CommitRecord}
    (hOpens : Opens V tx rec) (hFresh : sh.commit (revealKey V.E tx) = false) :
    TakesHold V sh tx pos st
      (Function.update sh.owner tx.domainName (some (hexEncode tx.recipient))) sh.forSale
      (Function.update sh.commit (revealKey V.E tx) true) := by
  have hPending := h.commit _ rec hFresh hOpens.pending
  have hFree : phaseOutside V.E pos tx st (· == .purged) = none := by
    simpa [Ready, hType] using hReady
  unfold TakesHold applyDomainMutations
  rw [hType]
  dsimp only
  unfold applyReveal
  dsimp only
  rw [hPending, hFree]
  have hOwned : Tracks V
      (Function.update sh.owner tx.domainName (some (hexEncode tx.recipient))) sh.forSale
      sh.commit { st with
        im := ((addDomain pos tx st tx).setOwner V.E tx.domainName
          (some tx.recipient)).markAsSpent tx.redeemsTxID } := by
    refine h.setOwner (fun d' => ?_) (fun d' => ?_) rfl
    · rw [IndexOverlay.getOwner_markAsSpent, IndexOverlay.getOwner_setOwner, addDomain,
        IndexOverlay.getOwner_add, Option.getD_some]
    · rw [IndexOverlay.getListPrice_markAsSpent, IndexOverlay.getListPrice_setOwner, addDomain,
        IndexOverlay.getListPrice_add]
  refine ⟨_, rfl, ⟨hOwned.owner, hOwned.price, fun key rec hUnused hGet => ?_⟩, collects_refl ..⟩
  rw [Function.update_apply] at hUnused
  split at hUnused
  · exact absurd hUnused (by simp)
  · rename_i hKey
    dsimp only
    rw [CommitOverlay.getCommit_consumeCommit, if_neg (Ne.symm hKey)]
    exact h.commit key rec hUnused hGet

theorem takesHold_update (hType : tx.type = .update) (hKey : tx.ownerKey.length ≠ 0)
    (hRedeems : tx.redeemsTxID ≠ 0)
    (hOwner : V.currentOwner sh tx.domainName = hexEncode tx.ownerKey) :
    TakesHold V sh tx pos st sh.owner sh.forSale sh.commit := by
  obtain ⟨hActive, hOwn⟩ : phaseOutside V.E pos tx st (· == .active) = none ∧
      redeemsOwnDomain pos tx st = true := by
    simpa [Ready, hType] using hReady
  have hSigner : ownedBySigner V.E tx st = true := by
    simp [ownedBySigner, h.getOwner_eq_some hKey hOwner]
  refine ⟨replaceDomain V.E pos tx st false, ?_, h.of_same (getOwner_replaceDomain _)
    (getListPrice_replaceDomain _) rfl, collects_refl ..⟩
  unfold applyDomainMutations
  rw [hType]
  dsimp only
  rw [applyUpdate, if_neg (by simp [hSigner]), hActive]
  dsimp only
  rw [applyUpdateOrRenew, if_neg hRedeems, if_neg (by simp [hOwn])]
  rfl

theorem takesHold_renew (hType : tx.type = .renew) (hRedeems : tx.redeemsTxID ≠ 0) :
    TakesHold V sh tx pos st sh.owner sh.forSale sh.commit := by
  obtain ⟨hUnpurged, hOwn⟩ : phaseOutside V.E pos tx st (· != .purged) = none ∧
      redeemsOwnDomain pos tx st = true := by
    simpa [Ready, hType] using hReady
  refine ⟨replaceDomain V.E pos tx st true, ?_, h.of_same (getOwner_replaceDomain _)
    (getListPrice_replaceDomain _) rfl, collects_refl ..⟩
  unfold applyDomainMutations
  rw [hType]
  dsimp only
  rw [applyRenew, hUnpurged]
  dsimp only
  rw [applyUpdateOrRenew, if_neg hRedeems, if_neg (by simp [hOwn])]
  rfl

theorem takesHold_revoke (hType : tx.type = .revoke) (hRedeems : tx.redeemsTxID ≠ 0)
    (hOwner : tx.ownerKey.length ≠ 0 →
      V.currentOwner sh tx.domainName = hexEncode tx.ownerKey) :
    TakesHold V sh tx pos st sh.owner sh.forSale sh.commit := by
  unfold Ready at hReady
  rw [hType] at hReady
  obtain ⟨hOwn, hAuto⟩ := hReady
  have hSigner : ¬ (0 < tx.ownerKey.length ∧ ownedBySigner V.E tx st = false) := by
    rintro ⟨hKey, hNot⟩
    have hSome := h.getOwner_eq_some (Nat.ne_of_gt hKey) (hOwner (Nat.ne_of_gt hKey))
    simp [ownedBySigner, hSome] at hNot
  refine ⟨revokeDomain V.E pos tx st, ?_, h.of_same getOwner_revokeDomain
    getListPrice_revokeDomain rfl, collects_refl ..⟩
  unfold applyDomainMutations
  rw [hType]
  dsimp only
  rw [applyRevoke, if_neg hSigner, if_neg (by simp [hOwn hRedeems])]
  by_cases hKey : tx.ownerKey.length = 0
  · obtain ⟨existingTx, hExisting, hPhase⟩ := hAuto hKey
    rw [if_pos hKey, hExisting]
    dsimp only
    rw [if_neg hPhase]
    rfl
  · rw [if_neg hKey]
    rfl

theorem takesHold_list (hType : tx.type = .list) (hKey : tx.ownerKey.length ≠ 0)
    (hOwner : V.currentOwner sh tx.domainName = hexEncode tx.ownerKey) :
    TakesHold V sh tx pos st sh.owner
      (Function.update sh.forSale tx.domainName (some tx.listPrice)) sh.commit := by
  have hActive : inActivePhase V.E pos tx st = .ok true := by simpa [Ready, hType] using hReady
  refine ⟨_, ?_, h.setListPrice tx.listPrice, collects_refl ..⟩
  unfold applyDomainMutations
  rw [hType]
  dsimp only
  simp [applyList, hActive, h.getOwner_eq_some hKey hOwner, bind, Except.bind, pure, Except.pure]

theorem takesHold_delist (hSale : ∀ d, V.im.isForSale d = decide (0 < V.im.getListPrice d))
    (hType : tx.type = .delist) (hKey : tx.ownerKey.length ≠ 0)
    (hListed : V.isListed sh tx.domainName = true)
    (hOwner : V.currentOwner sh tx.domainName = hexEncode tx.ownerKey) :
    TakesHold V sh tx pos st sh.owner
      (Function.update sh.forSale tx.domainName (some 0)) sh.commit := by
  have hActive : inActivePhase V.E pos tx st = .ok true := by simpa [Ready, hType] using hReady
  have hForSale := isForSale_of_isListed h hSale hListed
  refine ⟨_, ?_, h.setListPrice 0, collects_refl ..⟩
  unfold applyDomainMutations
  rw [hType]
  dsimp only
  simp [applyDelist, hActive, hForSale, h.getOwner_eq_some hKey hOwner, bind, Except.bind, pure,
    Except.pure]

theorem takesHold_transfer (hType : tx.type = .transfer) (hKey : tx.ownerKey.length ≠ 0)
    (hOwner : V.currentOwner sh tx.domainName = hexEncode tx.ownerKey) :
    TakesHold V sh tx pos st
      (Function.update sh.owner tx.domainName (some (hexEncode tx.recipient)))
      (Function.update sh.forSale tx.domainName (some 0)) sh.commit := by
  have hActive : inActivePhase V.E pos tx st = .ok true := by simpa [Ready, hType] using hReady
  have hOwned : Tracks V
      (Function.update sh.owner tx.domainName (some (hexEncode tx.recipient))) sh.forSale
      sh.commit { st with im := st.im.setOwner V.E tx.domainName (some tx.recipient) } :=
    h.setOwner (fun d' => IndexOverlay.getOwner_setOwner ..)
      (fun d' => IndexOverlay.getListPrice_setOwner ..) rfl
  refine ⟨_, ?_, hOwned.setListPrice 0, collects_refl ..⟩
  unfold applyDomainMutations
  rw [hType]
  dsimp only
  simp [applyTransferDomain, hActive, h.getOwner_eq_some hKey hOwner, bind, Except.bind, pure,
    Except.pure]

theorem takesHold_buy (hSale : ∀ d, V.im.isForSale d = decide (0 < V.im.getListPrice d))
    (hFit : st.ledger.supply < 2 ^ 64)
    (hFunds : V.bought sh tx ≤ (st.ledger.getBalance (hexEncode tx.ownerKey)).toNat)
    (hType : tx.type = .buy) (hListed : V.isListed sh tx.domainName = true)
    (hPrice : V.currentPrice sh tx.domainName ≤ tx.listPrice)
    (hOther : V.currentOwner sh tx.domainName ≠ hexEncode tx.ownerKey) :
    TakesHold V sh tx pos st
      (Function.update sh.owner tx.domainName (some (hexEncode tx.ownerKey)))
      (Function.update sh.forSale tx.domainName (some 0)) sh.commit := by
  have hActive : inActivePhase V.E pos tx st = .ok true := by simpa [Ready, hType] using hReady
  have hForSale := isForSale_of_isListed h hSale hListed
  have hSame : V.currentPrice sh tx.domainName = st.im.getListPrice V.E tx.domainName :=
    h.price tx.domainName
  have hSeller : hexEncode tx.ownerKey ≠
      hexEncode ((st.im.getOwner V.E tx.domainName).getD []) := by
    intro hEq
    refine hOther ((h.owner tx.domainName).trans ?_)
    rw [hEq]
    cases st.im.getOwner V.E tx.domainName <;> rfl
  obtain ⟨paid, hPaid⟩ : ∃ paid, st.ledger.debit (hexEncode tx.ownerKey)
      (st.im.getListPrice V.E tx.domainName) = .ok (.ok paid) := by
    refine ⟨_, BalanceLedger.debit_of_le (UInt64.le_iff_toNat_le.mpr ?_)⟩
    rw [bought, if_pos hType, hSame] at hFunds
    exact hFunds
  have hOwned : Tracks V
      (Function.update sh.owner tx.domainName (some (hexEncode tx.ownerKey))) sh.forSale
      sh.commit { st with
        ledger := paid.credit (hexEncode ((st.im.getOwner V.E tx.domainName).getD []))
          (st.im.getListPrice V.E tx.domainName)
        im := st.im.setOwner V.E tx.domainName (some tx.ownerKey) } :=
    h.setOwner (fun d' => IndexOverlay.getOwner_setOwner ..)
      (fun d' => IndexOverlay.getListPrice_setOwner ..) rfl
  refine ⟨_, ?_, hOwned.setListPrice 0, collects_of_buy hType hSame hPaid hFit _⟩
  unfold applyDomainMutations
  rw [hType]
  dsimp only
  have hLe : ¬ tx.listPrice < st.im.getListPrice V.E tx.domainName := by
    simpa [hSame] using hPrice
  simp [applyBuyDomain, hActive, hForSale, hSeller, hLe, hPaid, buyDomain, bind, Except.bind, pure,
    Except.pure]

/-- An accepted transaction that is ready takes effect, and the shadow maps keep up. -/
theorem takesHold_of_gate (hSale : ∀ d, V.im.isForSale d = decide (0 < V.im.getListPrice d))
    (hFit : st.ledger.supply < 2 ^ 64)
    (hFunds : V.bought sh tx ≤ (st.ledger.getBalance (hexEncode tx.ownerKey)).toNat)
    {owner' : Bytes → Option Bytes} {forSale' : Bytes → Option UInt64} {commit' : Bytes → Bool}
    (hGate : DomainGate V sh tx owner' forSale' commit') :
    TakesHold V sh tx pos st owner' forSale' commit' := by
  cases hGate with
  | commit hType hLength => exact takesHold_commit h hType hLength
  | reveal hType rec hOpens hFresh => exact takesHold_reveal h hReady hType hOpens hFresh
  | change hType hKey hRedeems hOwner =>
    rcases hType with hType | hType
    · exact takesHold_update h hReady hType hKey hRedeems hOwner
    · exact takesHold_revoke h hReady hType hRedeems fun _ => hOwner
  | autoRevoke hType hKey hRedeems =>
    exact takesHold_revoke h hReady hType hRedeems fun hSigned => absurd hKey hSigned
  | renew hType hRedeems => exact takesHold_renew h hReady hType hRedeems
  | list hType hKey hOwner => exact takesHold_list h hReady hType hKey hOwner
  | delist hType hKey hListed hOwner =>
    exact takesHold_delist h hReady hSale hType hKey hListed hOwner
  | buy hType hKey hListed hPrice hOther =>
    exact takesHold_buy h hReady hSale hFit hFunds hType hListed hPrice hOther
  | transfer hType hKey hOwner => exact takesHold_transfer h hReady hType hKey hOwner
  | other hType => exact takesHold_other h hType

end Step

/-! ## A block -/

section Block

variable {env : Env} {order : JournalOrder} {s : ChainState} {b : Block}

/-- The states that the transactions of a block meet in the domain pass. -/
def Meets (env : Env) (order : JournalOrder) (s : ChainState) (b : Block) (ledger : BalanceLedger)
    (before : List Transaction) (st : DomainState) : Prop :=
  domainPass env order b.slotNumber b.index before (domainStart s b ledger) = .ok st

/-- Every transaction of the block returns no error. -/
def AllApplied (env : Env) (order : JournalOrder) (s : ChainState) (b : Block)
    (ledger : BalanceLedger) : Prop :=
  ∀ before tx after, b.transactions = before ++ tx :: after → ∃ st st',
    Meets env order s b ledger before st ∧
      applyDomainMutations env.E (env.position order b.slotNumber b.index before.length) tx st =
        .ok (st', none)

/-- Every transaction of the block finds phase and redeemed transaction as it needs them. -/
def AllReady (env : Env) (order : JournalOrder) (s : ChainState) (b : Block)
    (ledger : BalanceLedger) : Prop :=
  ∀ before tx after, b.transactions = before ++ tx :: after → ∀ st,
    Meets env order s b ledger before st →
      Ready env.E (env.position order b.slotNumber b.index before.length) tx st

theorem allReady_of_allApplied {ledger : BalanceLedger} (h : AllApplied env order s b ledger) :
    AllReady env order s b ledger := by
  intro before tx after hSplit st hMeets
  obtain ⟨st₁, st', hMeets₁, hApply⟩ := h before tx after hSplit
  obtain rfl : st₁ = st := Except.ok.inj (hMeets₁.symm.trans hMeets)
  exact ready_of_effect (applyDomainMutations_eq_ok hApply)

/-- From a state that the shadow maps describe, the rest of an accepted list is applied. -/
theorem applied_from {ledger : BalanceLedger} (hReady : AllReady env order s b ledger)
    {before rest : List Transaction} (hSplit : b.transactions = before ++ rest)
    {st : DomainState} (hMeets : Meets env order s b ledger before st) {sh final : Shadow}
    (hTracks : Tracks (blockValidation env s b) sh.domains.owner sh.domains.forSale
      sh.domains.commit st)
    (hFit : st.ledger.supply < 2 ^ 64)
    (hFunds : ∀ k, owed (blockValidation env s b) k sh rest ≤ (st.ledger.getBalance k).toNat)
    (hRun : rest.foldlM (blockValidation env s b).validateTx sh = .ok final) :
    ∀ middle tx after, rest = middle ++ tx :: after → ∃ st st',
      Meets env order s b ledger (before ++ middle) st ∧
        applyDomainMutations env.E
          (env.position order b.slotNumber b.index (before ++ middle).length) tx st =
            .ok (st', none) := by
  induction rest generalizing before st sh with
  | nil =>
    intro middle tx after hNil
    simp at hNil
  | cons tx₁ rest ih =>
    rw [List.foldlM_cons] at hRun
    obtain ⟨sh', hTx, hRest⟩ := bind_eq_ok.mp hRun
    have hOwed := fun k => owed_cons hTx k rest
    have hPrice : (blockValidation env s b).bought sh.domains tx₁ ≤
        (st.ledger.getBalance (hexEncode tx₁.ownerKey)).toNat := by
      have hk := hFunds (hexEncode tx₁.ownerKey)
      rw [hOwed, if_pos rfl] at hk
      omega
    have hSale : ∀ d, (blockValidation env s b).im.isForSale d =
        decide (0 < (blockValidation env s b).im.getListPrice d) :=
      fun d => (IndexOverlay.newIndexOverlay s.index).isForSale_eq (E := env.E) d
    obtain ⟨st', hApply, hTracks', hSupply, hBalance⟩ := takesHold_of_gate hTracks
      (hReady before tx₁ rest hSplit st hMeets) hSale hFit hPrice (domainGate_of_validateTx hTx)
    change applyDomainMutations env.E _ tx₁ st = _ at hApply
    intro middle tx after hMiddle
    cases middle with
    | nil =>
      obtain ⟨rfl, rfl⟩ := List.cons.inj hMiddle
      exact ⟨st, st', by simpa using hMeets, by simpa using hApply⟩
    | cons t middle =>
      rw [List.cons_append] at hMiddle
      obtain ⟨rfl, rfl⟩ := List.cons.inj hMiddle
      have hSplit' : b.transactions = (before ++ [tx₁]) ++ (middle ++ tx :: after) := by
        simp [hSplit]
      have hFunds' : ∀ k, owed (blockValidation env s b) k sh' (middle ++ tx :: after) ≤
          (st'.ledger.getBalance k).toNat := by
        intro k
        have hk := hFunds k
        have hLeft := hBalance k
        rw [hOwed] at hk
        omega
      have hNext := ih hSplit' (domainPass_concat hMeets hApply) hTracks' (by omega) hFunds' hRest
        middle tx after rfl
      simpa using hNext

theorem tracks_init (env : Env) (s : ChainState) (b : Block) (ledger : BalanceLedger) :
    Tracks (blockValidation env s b) (fun _ => none) (fun _ => none) (fun _ => false)
      (domainStart s b ledger) :=
  ⟨fun _ => rfl, fun _ => rfl, fun _ _ _ hPending => hPending⟩

/-- For an accepted list over a ledger whose coins fit in 64 bits together with the fees: every
transaction is applied without an error exactly where every transaction finds its domain in the
phase that its operation needs and its redeemed transaction under the domain's name. -/
theorem accepted_applied_iff_ready {sh : Shadow}
    (hRun : (blockValidation env s b).run b.transactions = .ok sh)
    (hFit : s.ledger.supply + (totalFees b.transactions).toNat < 2 ^ 64) :
    ∃ ledger, ledgerPass b.transactions s.ledger = .ok ledger ∧
      (AllApplied env order s b ledger ↔ AllReady env order s b ledger) := by
  have hInit := backed_init (blockValidation env s b)
  obtain ⟨ledger, hPass, hSupply, hBacked⟩ := hInit.ledgerPass
    (Nat.lt_of_le_of_lt (Nat.le_add_right _ _) hFit) hRun
  refine ⟨ledger, hPass, allReady_of_allApplied, fun hReady => ?_⟩
  have hSupply' : ledger.supply ≤ s.ledger.supply := hSupply
  have hCredited := supply_creditFees_le b.transactions b.slotLeader ledger
  have hFunds : ∀ k, owed (blockValidation env s b) k {} b.transactions ≤
      ((domainStart s b ledger).ledger.getBalance k).toNat := by
    intro k
    have hk := hBacked k
    have hMore : (ledger.getBalance k).toNat ≤
        ((creditFees b.transactions b.slotLeader ledger).getBalance k).toNat := by
      unfold creditFees
      split
      · rw [toNat_getBalance_credit (by omega)]
        exact Nat.le_add_right _ _
      · exact Nat.le_refl _
    dsimp only at hk
    exact Nat.le_trans (by omega) hMore
  have hStart : Meets env order s b ledger [] (domainStart s b ledger) := rfl
  exact applied_from hReady (List.nil_append _).symm hStart (tracks_init env s b ledger)
    (Nat.lt_of_le_of_lt hCredited (by omega)) hFunds hRun

end Block

/-- The block of the sample chain that registers a domain. -/
theorem accepted_applied_iff_ready_reveal :
    ∃ ledger, ledgerPass (StandIn.registryChain 2).2.transactions
        (StandIn.registryChain 1).1.ledger = .ok ledger ∧
      AllApplied StandIn.registryEnv (.ascending _ _) (StandIn.registryChain 1).1
        (StandIn.registryChain 2).2 ledger := by
  obtain ⟨hTxs, hOk, hAbsent⟩ :
      (StandIn.registryChain 2).2.transactions = [StandIn.revealTx 2 1 1 [1] 1000] ∧
        ((blockValidation StandIn.registryEnv (StandIn.registryChain 1).1
          (StandIn.registryChain 2).2).run (StandIn.registryChain 2).2.transactions).isOk = true ∧
        (IndexOverlay.newIndexOverlay (StandIn.registryChain 1).1.index).getDomain
          StandIn.registryEnv.E (StandIn.revealTx 2 1 1 [1] 1000).domainName = none := by
    decide +kernel
  obtain ⟨sh, hRun⟩ := exists_eq_ok hOk
  obtain ⟨ledger, hPass, hIff⟩ : ∃ ledger, ledgerPass _ _ = .ok ledger ∧
      (AllApplied StandIn.registryEnv (.ascending _ _) (StandIn.registryChain 1).1
        (StandIn.registryChain 2).2 ledger ↔ AllReady _ _ _ _ ledger) :=
    accepted_applied_iff_ready hRun (by decide +kernel)
  refine ⟨ledger, hPass, hIff.mpr ?_⟩
  intro before tx after hSplit st hMeets
  rw [hTxs] at hSplit
  cases before with
  | cons t before => simp at hSplit
  | nil =>
    obtain ⟨rfl, rfl⟩ := List.cons.inj hSplit
    obtain rfl : domainStart _ _ ledger = st := Except.ok.inj hMeets
    -- the domain does not exist yet
    change phaseOutside _ _ _ _ _ = none
    unfold phaseOutside domainStart
    dsimp only
    rw [hAbsent]
    rfl

/-! ## A domain that has expired -/

/-- A domain is registered in slot 4, until slot 6. -/
def expiredLog : List (Int64 × List Transaction) :=
  [(1, [StandIn.commitTx 1 0 [1]]), (4, [StandIn.revealTx 2 1 1 [1] 6])]

/-- An UPDATE by the owner. -/
def lateUpdate : Transaction :=
  StandIn.registryTx
    { tid := 3, type := .update, nonce := 2, redeemsTxID := 2, expirySlot := 1000
      domainName := utf8 "a.bdns", records := [⟨utf8 "A", utf8 "1.2.3.4", 0⟩] }

/-- The block of slot 10, in the grace phase of the domain, and the state and the block that it
extends. -/
def lateTip : ChainState × Block := StandIn.afterLog expiredLog

def lateBlock : Block := (StandIn.registryStep lateTip (10, [lateUpdate])).2

/-- The block is accepted, the owner pays its fee and uses up its nonce, and the UPDATE fails. -/
theorem accepted_update_without_effect :
    StandIn.logAccepted (genesisState StandIn.registryEnv, StandIn.registryGenesis)
        (expiredLog ++ [(10, [lateUpdate])]) = true ∧
      lateBlock.transactions = [lateUpdate] ∧
      ∃ sh ledger text,
        (blockValidation StandIn.registryEnv lateTip.1 lateBlock).run lateBlock.transactions =
          .ok sh ∧
        ledgerPass lateBlock.transactions lateTip.1.ledger = .ok ledger ∧
        ledger.getNonce (hexEncode (utf8 "registry")) = 3 ∧
        ledger.getBalance (hexEncode (utf8 "registry")) + 1 =
          lateTip.1.ledger.getBalance (hexEncode (utf8 "registry")) ∧
        applyDomainMutations StandIn.registryEnv.E
          (StandIn.registryEnv.position (.ascending _ _) lateBlock.slotNumber lateBlock.index 0)
          lateUpdate (domainStart lateTip.1 lateBlock ledger) =
            .ok (domainStart lateTip.1 lateBlock ledger, some text) := by
  obtain ⟨hLog, hTxs, hOk, hPays, hNonce, hBalance, hErr⟩ :
      StandIn.logAccepted (genesisState StandIn.registryEnv, StandIn.registryGenesis)
          (expiredLog ++ [(10, [lateUpdate])]) = true ∧
        lateBlock.transactions = [lateUpdate] ∧
        ((blockValidation StandIn.registryEnv lateTip.1 lateBlock).run
          lateBlock.transactions).isOk = true ∧
        (ledgerPass lateBlock.transactions lateTip.1.ledger).isOk = true ∧
        (okOr (ledgerPass lateBlock.transactions lateTip.1.ledger) {}).getNonce
          (hexEncode (utf8 "registry")) = 3 ∧
        (okOr (ledgerPass lateBlock.transactions lateTip.1.ledger) {}).getBalance
            (hexEncode (utf8 "registry")) + 1 =
          lateTip.1.ledger.getBalance (hexEncode (utf8 "registry")) ∧
        (applyDomainMutations StandIn.registryEnv.E
          (StandIn.registryEnv.position (.ascending _ _) lateBlock.slotNumber lateBlock.index 0)
          lateUpdate (domainStart lateTip.1 lateBlock
            (okOr (ledgerPass lateBlock.transactions lateTip.1.ledger) {}))).toOption.map Prod.snd =
          some (some (utf8 "UPDATE failed: domain a.bdns is in grace phase (must be active)")) := by
    decide +kernel
  obtain ⟨sh, hRun⟩ := exists_eq_ok hOk
  refine ⟨hLog, hTxs, sh, _, utf8 "UPDATE failed: domain a.bdns is in grace phase (must be active)",
    hRun, eq_ok_okOr hPays {}, hNonce, hBalance, ?_⟩
  cases hApply : applyDomainMutations StandIn.registryEnv.E
      (StandIn.registryEnv.position (.ascending _ _) lateBlock.slotNumber lateBlock.index 0)
      lateUpdate (domainStart lateTip.1 lateBlock
        (okOr (ledgerPass lateBlock.transactions lateTip.1.ledger) {})) with
  | error p =>
    rw [hApply] at hErr
    simp [Except.toOption] at hErr
  | ok result =>
    obtain ⟨st', err⟩ := result
    rw [hApply] at hErr
    obtain rfl : err = some (utf8 "UPDATE failed: domain a.bdns is in grace phase (must be active)") :=
      Option.some.inj hErr
    rw [(applyDomainMutations_eq_ok hApply).eq_of_some]

end Bdns.Safety
