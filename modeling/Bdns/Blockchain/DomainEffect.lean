import Bdns.Blockchain.Apply

/-!
# What one domain mutation can do

`ApplyDomainMutations` read backwards: either it returned an error and changed nothing, or the
transaction passed the checks of its type and changed the state in one known way.
-/

namespace Bdns.Blockchain

open Lib Index

section

variable (E : External) (pos : Position) (tx : Transaction) (st : DomainState)

/-- The state after a transaction and the error it returned, with what was checked. -/
inductive DomainEffect : DomainState → Option Bytes → Prop
  | failed (text : Bytes) : DomainEffect st (some text)
  | skipped (hType : tx.type = .fund ∨ tx.type = .stake ∨ tx.type = .unstake ∨
      tx.type = .equivocationProof ∨ ∃ code hCode, tx.type = .other code hCode) :
      DomainEffect st none
  | registered (hType : tx.type = .register)
      (hFree : phaseOutside E pos tx st (· == .purged) = none) (hRedeems : tx.redeemsTxID = 0) :
      DomainEffect { st with
        im := (addDomain pos tx st tx).setOwner E tx.domainName (some tx.ownerKey) } none
  | committed (hType : tx.type = .commit) :
      DomainEffect { st with
        cs := st.cs.addCommit
          { commitHash := tx.commitHash, committerPK := tx.ownerKey, commitBlock := pos.blockIndex
            commitSlot := pos.currentSlot, commitTID := tx.tid
            expiryBlock := pos.blockIndex + commitMaxWindow } } none
  | revealed (hType : tx.type = .reveal) (rec : CommitRecord)
      (hCommit : st.cs.getCommit (Validation.revealKey E tx) = some rec)
      (hFree : phaseOutside E pos tx st (· == .purged) = none) :
      DomainEffect { st with
        im := ((addDomain pos tx st tx).setOwner E tx.domainName (some tx.recipient)).markAsSpent
          tx.redeemsTxID
        cs := st.cs.consumeCommit (Validation.revealKey E tx) } none
  | revoked (hType : tx.type = .revoke)
      (hOwner : 0 < tx.ownerKey.length → ownedBySigner E tx st = true)
      (hRedeems : tx.redeemsTxID ≠ 0 → redeemsOwnDomain pos tx st = true)
      (hAuto : tx.ownerKey.length = 0 → ∃ existingTx,
        st.im.getDomain E tx.domainName = some existingTx ∧
        getDomainPhase pos.currentSlot existingTx.expirySlot pos.slotsPerDay ≠ .active) :
      DomainEffect (revokeDomain E pos tx st) none
  | updated (hType : tx.type = .update) (hOwner : ownedBySigner E tx st = true)
      (hActive : phaseOutside E pos tx st (· == .active) = none) (hRedeems : tx.redeemsTxID ≠ 0)
      (hOwn : redeemsOwnDomain pos tx st = true) :
      DomainEffect (replaceDomain E pos tx st false) none
  | renewed (hType : tx.type = .renew)
      (hUnpurged : phaseOutside E pos tx st (· != .purged) = none) (hRedeems : tx.redeemsTxID ≠ 0)
      (hOwn : redeemsOwnDomain pos tx st = true) :
      DomainEffect (replaceDomain E pos tx st true) none
  | listed (hType : tx.type = .list) (hActive : inActivePhase E pos tx st = .ok true)
      (hOwner : st.im.getOwner E tx.domainName = some tx.ownerKey) :
      DomainEffect { st with im := st.im.setListPrice E tx.domainName tx.listPrice } none
  | delisted (hType : tx.type = .delist) (hActive : inActivePhase E pos tx st = .ok true)
      (hForSale : st.im.isForSale E tx.domainName = true)
      (hOwner : st.im.getOwner E tx.domainName = some tx.ownerKey) :
      DomainEffect { st with im := st.im.setListPrice E tx.domainName 0 } none
  | bought (hType : tx.type = .buy) (hActive : inActivePhase E pos tx st = .ok true)
      (hForSale : st.im.isForSale E tx.domainName = true)
      (hOther : tx.ownerKey ≠ (st.im.getOwner E tx.domainName).getD [])
      (hPrice : st.im.getListPrice E tx.domainName ≤ tx.listPrice) (paid : BalanceLedger)
      (hPaid : st.ledger.debit (hexEncode tx.ownerKey) (st.im.getListPrice E tx.domainName) =
        .ok (.ok paid)) :
      DomainEffect (buyDomain E tx st paid
        (hexEncode ((st.im.getOwner E tx.domainName).getD []))
        (st.im.getListPrice E tx.domainName)) none
  | transferred (hType : tx.type = .transfer) (hActive : inActivePhase E pos tx st = .ok true)
      (hOwner : st.im.getOwner E tx.domainName = some tx.ownerKey) :
      DomainEffect { st with
        im := (st.im.setOwner E tx.domainName (some tx.recipient)).setListPrice E
          tx.domainName 0 } none

end

variable {E : External} {pos : Position} {tx : Transaction} {st st' : DomainState}
  {err : Option Bytes}

theorem DomainEffect.of_failed {text : Bytes}
    (h : (pure (st, some text) : DomainResult) = .ok (st', err)) :
    DomainEffect E pos tx st st' err := by
  obtain ⟨rfl, rfl⟩ := Prod.mk.inj (pure_eq_ok.mp h)
  exact .failed _

/-- An error whose text shows the start of a key. -/
theorem DomainEffect.of_failed_naming {pubKeyHex : Bytes} {text : Bytes → Bytes}
    (h : (do let short ← keyPrefix pubKeyHex; pure (st, some (text short)) : DomainResult) =
      .ok (st', err)) :
    DomainEffect E pos tx st st' err := by
  obtain ⟨short, -, h⟩ := bind_eq_ok.mp h
  exact .of_failed h

theorem applyRegister_eq_ok (hType : tx.type = .register)
    (h : applyRegister E pos tx st = .ok (st', err)) : DomainEffect E pos tx st st' err := by
  unfold applyRegister at h
  split at h
  · exact .of_failed h
  · rename_i hFree
    split at h
    · exact .of_failed h
    · rename_i hRedeems
      obtain ⟨rfl, rfl⟩ := Prod.mk.inj (pure_eq_ok.mp h)
      exact .registered hType hFree (not_not.mp hRedeems)

theorem applyReveal_eq_ok (hType : tx.type = .reveal)
    (h : applyReveal E pos tx st = .ok (st', err)) : DomainEffect E pos tx st st' err := by
  unfold applyReveal at h
  dsimp only at h
  split at h
  · exact .of_failed h
  · rename_i rec hCommit
    split at h
    · exact .of_failed h
    · rename_i hFree
      obtain ⟨rfl, rfl⟩ := Prod.mk.inj (pure_eq_ok.mp h)
      exact .revealed hType rec hCommit hFree

theorem applyRevoke_eq_ok (hType : tx.type = .revoke)
    (h : applyRevoke E pos tx st = .ok (st', err)) : DomainEffect E pos tx st st' err := by
  unfold applyRevoke at h
  split at h
  · exact .of_failed_naming h
  · rename_i hOwner
    have hOwned : 0 < tx.ownerKey.length → ownedBySigner E tx st = true := fun hKey => by
      simpa using fun hNot => hOwner ⟨hKey, hNot⟩
    split at h
    · exact .of_failed h
    · rename_i hRedeems
      have hOwn : tx.redeemsTxID ≠ 0 → redeemsOwnDomain pos tx st = true := fun hTid => by
        simpa using fun hNot => hRedeems ⟨hTid, hNot⟩
      split at h
      · split at h
        · exact .of_failed h
        · rename_i existingTx hExisting
          split at h
          · exact .of_failed h
          · rename_i hPhase
            obtain ⟨rfl, rfl⟩ := Prod.mk.inj (pure_eq_ok.mp h)
            exact .revoked hType hOwned hOwn fun _ => ⟨existingTx, hExisting, hPhase⟩
      · rename_i hKey
        obtain ⟨rfl, rfl⟩ := Prod.mk.inj (pure_eq_ok.mp h)
        exact .revoked hType hOwned hOwn fun hOwnerless => absurd hOwnerless hKey

/-- The shared end of UPDATE and RENEW. -/
theorem applyUpdateOrRenew_eq_ok {isRenew : Bool}
    (hEffect : tx.redeemsTxID ≠ 0 → redeemsOwnDomain pos tx st = true →
      DomainEffect E pos tx st (replaceDomain E pos tx st isRenew) none)
    (h : applyUpdateOrRenew E pos tx st isRenew = .ok (st', err)) :
    DomainEffect E pos tx st st' err := by
  unfold applyUpdateOrRenew at h
  dsimp only at h
  split at h
  · exact .of_failed h
  · rename_i hRedeems
    split at h
    · exact .of_failed h
    · rename_i hOwn
      obtain ⟨rfl, rfl⟩ := Prod.mk.inj (pure_eq_ok.mp h)
      exact hEffect hRedeems (by simpa using hOwn)

theorem applyUpdate_eq_ok (hType : tx.type = .update)
    (h : applyUpdate E pos tx st = .ok (st', err)) : DomainEffect E pos tx st st' err := by
  unfold applyUpdate at h
  split at h
  · exact .of_failed_naming h
  · rename_i hOwner
    split at h
    · exact .of_failed h
    · rename_i hActive
      exact applyUpdateOrRenew_eq_ok
        (fun hRedeems hOwn => .updated hType (by simpa using hOwner) hActive hRedeems hOwn) h

theorem applyRenew_eq_ok (hType : tx.type = .renew)
    (h : applyRenew E pos tx st = .ok (st', err)) : DomainEffect E pos tx st st' err := by
  unfold applyRenew at h
  split at h
  · exact .of_failed h
  · rename_i hUnpurged
    exact applyUpdateOrRenew_eq_ok
      (fun hRedeems hOwn => .renewed hType hUnpurged hRedeems hOwn) h

theorem applyList_eq_ok (hType : tx.type = .list)
    (h : applyList E pos tx st = .ok (st', err)) : DomainEffect E pos tx st st' err := by
  unfold applyList at h
  obtain ⟨active, hActive, h⟩ := bind_eq_ok.mp h
  split at h
  · exact .of_failed h
  · rename_i hTrue
    obtain rfl : active = true := by simpa using hTrue
    split at h
    · exact .of_failed h
    · rename_i owner hOwner
      split at h
      · exact .of_failed_naming h
      · rename_i hSigner
        obtain rfl := hexEncode_injective (not_not.mp hSigner)
        obtain ⟨rfl, rfl⟩ := Prod.mk.inj (pure_eq_ok.mp h)
        exact .listed hType hActive hOwner

theorem applyDelist_eq_ok (hType : tx.type = .delist)
    (h : applyDelist E pos tx st = .ok (st', err)) : DomainEffect E pos tx st st' err := by
  unfold applyDelist at h
  obtain ⟨active, hActive, h⟩ := bind_eq_ok.mp h
  split at h
  · exact .of_failed h
  · rename_i hTrue
    obtain rfl : active = true := by simpa using hTrue
    split at h
    · exact .of_failed h
    · rename_i owner hOwner
      split at h
      · exact .of_failed h
      · rename_i hForSale
        split at h
        · exact .of_failed_naming h
        · rename_i hSigner
          obtain rfl := hexEncode_injective (not_not.mp hSigner)
          obtain ⟨rfl, rfl⟩ := Prod.mk.inj (pure_eq_ok.mp h)
          exact .delisted hType hActive (by simpa using hForSale) hOwner

theorem applyBuyDomain_eq_ok (hType : tx.type = .buy)
    (h : applyBuyDomain E pos tx st = .ok (st', err)) : DomainEffect E pos tx st st' err := by
  unfold applyBuyDomain at h
  obtain ⟨active, hActive, h⟩ := bind_eq_ok.mp h
  split at h
  · exact .of_failed h
  · rename_i hTrue
    obtain rfl : active = true := by simpa using hTrue
    split at h
    · exact .of_failed h
    · rename_i hForSale
      dsimp only at h
      split at h
      · exact .of_failed_naming h
      · rename_i hOther
        split at h
        · exact .of_failed h
        · rename_i hPrice
          obtain ⟨r, hDebit, h⟩ := bind_eq_ok.mp h
          cases r with
          | error text => exact .of_failed_naming h
          | ok paid =>
            obtain ⟨rfl, rfl⟩ := Prod.mk.inj (pure_eq_ok.mp h)
            exact .bought hType hActive (by simpa using hForSale)
              (fun hEq => hOther (congrArg hexEncode hEq)) (by simpa using hPrice) paid hDebit

theorem applyTransferDomain_eq_ok (hType : tx.type = .transfer)
    (h : applyTransferDomain E pos tx st = .ok (st', err)) : DomainEffect E pos tx st st' err := by
  unfold applyTransferDomain at h
  obtain ⟨active, hActive, h⟩ := bind_eq_ok.mp h
  split at h
  · exact .of_failed h
  · rename_i hTrue
    obtain rfl : active = true := by simpa using hTrue
    split at h
    · exact .of_failed h
    · rename_i owner hOwner
      split at h
      · exact .of_failed_naming h
      · rename_i hSigner
        obtain rfl := hexEncode_injective (not_not.mp hSigner)
        obtain ⟨rfl, rfl⟩ := Prod.mk.inj (pure_eq_ok.mp h)
        exact .transferred hType hActive hOwner

/-- Every outcome of `ApplyDomainMutations` is one of the effects. -/
theorem applyDomainMutations_eq_ok (h : applyDomainMutations E pos tx st = .ok (st', err)) :
    DomainEffect E pos tx st st' err := by
  unfold applyDomainMutations at h
  split at h
  case h_1 hType => exact applyRegister_eq_ok hType h
  case h_2 hType =>
    unfold applyCommit at h
    split at h
    · exact absurd h (by simp)
    · obtain ⟨rfl, rfl⟩ := Prod.mk.inj (pure_eq_ok.mp h)
      exact .committed hType
  case h_3 hType => exact applyReveal_eq_ok hType h
  case h_4 hType => exact applyRevoke_eq_ok hType h
  case h_5 hType => exact applyUpdate_eq_ok hType h
  case h_6 hType => exact applyRenew_eq_ok hType h
  case h_7 hType => exact applyList_eq_ok hType h
  case h_8 hType => exact applyBuyDomain_eq_ok hType h
  case h_9 hType => exact applyTransferDomain_eq_ok hType h
  case h_10 hType => exact applyDelist_eq_ok hType h
  all_goals
    obtain ⟨rfl, rfl⟩ := Prod.mk.inj (pure_eq_ok.mp h)
    exact .skipped (by simp_all)

/-- A failed transaction leaves no trace. -/
theorem DomainEffect.eq_of_some {text : Bytes} (h : DomainEffect E pos tx st st' (some text)) :
    st' = st := by
  cases h
  rfl

/-- Coins move only in a BUY, and only from the buyer to the owner. -/
theorem DomainEffect.ledger (h : DomainEffect E pos tx st st' err) :
    st'.ledger = st.ledger ∨
      tx.type = .buy ∧ ∃ paid seller price,
        st.ledger.debit (hexEncode tx.ownerKey) price = .ok (.ok paid) ∧
        st'.ledger = paid.credit (hexEncode seller) price := by
  cases h with
  | bought hType _ _ _ _ paid hPaid => exact .inr ⟨hType, paid, _, _, hPaid, rfl⟩
  | _ => exact .inl rfl

end Bdns.Blockchain
