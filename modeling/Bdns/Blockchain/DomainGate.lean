import Bdns.Blockchain.Acceptance

/-!
# What acceptance says about domains

The gates on domains read backwards, one case for each kind of operation: what validation has
checked of owner, price and pending commits, and what it writes in the three shadow maps that
later transactions of the block are checked against.
-/

namespace Bdns.Blockchain

open Lib Index

namespace Validation

/-- An accepted transaction, with the shadow maps of owners, prices and used commits after it. -/
inductive DomainGate (V : Validation) (sh : DomainShadow) (tx : Transaction) :
    (Bytes → Option Bytes) → (Bytes → Option UInt64) → (Bytes → Bool) → Prop
  | commit (hType : tx.type = .commit) (hLength : tx.commitHash.length = 32) :
      DomainGate V sh tx sh.owner sh.forSale
        (Function.update sh.commit (hexEncode tx.commitHash) true)
  | reveal (hType : tx.type = .reveal) (rec : CommitRecord) (hOpens : Opens V tx rec)
      (hFresh : sh.commit (revealKey V.E tx) = false) :
      DomainGate V sh tx
        (Function.update sh.owner tx.domainName (some (hexEncode tx.recipient))) sh.forSale
        (Function.update sh.commit (revealKey V.E tx) true)
  | change (hType : tx.type = .update ∨ tx.type = .revoke) (hKey : tx.ownerKey.length ≠ 0)
      (hRedeems : tx.redeemsTxID ≠ 0)
      (hOwner : V.currentOwner sh tx.domainName = hexEncode tx.ownerKey) :
      DomainGate V sh tx sh.owner sh.forSale sh.commit
  | autoRevoke (hType : tx.type = .revoke) (hKey : tx.ownerKey.length = 0)
      (hRedeems : tx.redeemsTxID ≠ 0) : DomainGate V sh tx sh.owner sh.forSale sh.commit
  | renew (hType : tx.type = .renew) (hRedeems : tx.redeemsTxID ≠ 0) :
      DomainGate V sh tx sh.owner sh.forSale sh.commit
  | list (hType : tx.type = .list) (hKey : tx.ownerKey.length ≠ 0)
      (hOwner : V.currentOwner sh tx.domainName = hexEncode tx.ownerKey) :
      DomainGate V sh tx sh.owner
        (Function.update sh.forSale tx.domainName (some tx.listPrice)) sh.commit
  | delist (hType : tx.type = .delist) (hKey : tx.ownerKey.length ≠ 0)
      (hListed : V.isListed sh tx.domainName = true)
      (hOwner : V.currentOwner sh tx.domainName = hexEncode tx.ownerKey) :
      DomainGate V sh tx sh.owner (Function.update sh.forSale tx.domainName (some 0)) sh.commit
  | buy (hType : tx.type = .buy) (hKey : tx.ownerKey.length ≠ 0)
      (hListed : V.isListed sh tx.domainName = true)
      (hPrice : V.currentPrice sh tx.domainName ≤ tx.listPrice)
      (hOther : V.currentOwner sh tx.domainName ≠ hexEncode tx.ownerKey) :
      DomainGate V sh tx
        (Function.update sh.owner tx.domainName (some (hexEncode tx.ownerKey)))
        (Function.update sh.forSale tx.domainName (some 0)) sh.commit
  | transfer (hType : tx.type = .transfer) (hKey : tx.ownerKey.length ≠ 0)
      (hOwner : V.currentOwner sh tx.domainName = hexEncode tx.ownerKey) :
      DomainGate V sh tx
        (Function.update sh.owner tx.domainName (some (hexEncode tx.recipient)))
        (Function.update sh.forSale tx.domainName (some 0)) sh.commit
  | other (hType : tx.type = .fund ∨ tx.type = .stake ∨ tx.type = .unstake ∨
      tx.type = .equivocationProof ∨ ∃ code hCode, tx.type = .other code hCode) :
      DomainGate V sh tx sh.owner sh.forSale sh.commit

variable {V : Validation} {tx : Transaction}

section Gates

variable {sh sh' : DomainShadow} {k : Bytes} {balance balance' : UInt64}

/-- The shadow maps after `recordTx`. -/
theorem maps_recordTx (sh : DomainShadow) (tx : Transaction) :
    (recordTx sh tx).owner = sh.owner ∧ (recordTx sh tx).forSale = sh.forSale ∧
      (recordTx sh tx).commit = sh.commit := by
  unfold recordTx
  split <;> exact ⟨rfl, rfl, rfl⟩

/-- The gates that a transaction of a key passes, with the shadows in between. -/
theorem checkDomainGates_eq_ok (h : V.checkDomainGates sh tx k balance = .ok (balance', sh')) :
    ∃ b sh₁ sh₂ sh₃ sh₄ sh₅, V.checkBuy sh tx k balance = .ok (b, sh₁) ∧
      V.checkListing sh₁ tx k = .ok sh₂ ∧ V.checkUpdateRevoke sh₂ tx k = .ok () ∧
      V.checkRenew sh₂ tx k = .ok () ∧ V.checkRegister sh₂ tx k = .ok sh₃ ∧
      V.checkReveal sh₃ tx = .ok sh₄ ∧ V.checkTransfer sh₄ tx k = .ok sh₅ ∧
      sh' = recordTx sh₅ tx := by
  unfold checkDomainGates at h
  obtain ⟨⟨b, sh₁⟩, hBuy, h⟩ := bind_eq_ok.mp h
  obtain ⟨sh₂, hListing, h⟩ := bind_eq_ok.mp h
  obtain ⟨_, hUpdate, h⟩ := bind_eq_ok.mp h
  obtain ⟨_, hRenew, h⟩ := bind_eq_ok.mp h
  obtain ⟨sh₃, hRegister, h⟩ := bind_eq_ok.mp h
  obtain ⟨sh₄, hReveal, h⟩ := bind_eq_ok.mp h
  obtain ⟨sh₅, hTransfer, h⟩ := bind_eq_ok.mp h
  exact ⟨b, sh₁, sh₂, sh₃, sh₄, sh₅, hBuy, hListing, hUpdate, hRenew, hRegister, hReveal,
    hTransfer, (congrArg Prod.snd (pure_eq_ok.mp h)).symm⟩

theorem checkBuy_of_ne (hType : tx.type ≠ .buy) :
    V.checkBuy sh tx k balance = .ok (balance, sh) := if_neg hType

theorem checkListing_of_ne (hList : tx.type ≠ .list) (hDelist : tx.type ≠ .delist) :
    V.checkListing sh tx k = .ok sh := if_neg (not_or.mpr ⟨hList, hDelist⟩)

theorem checkRegister_of_ne (hType : tx.type ≠ .register) :
    V.checkRegister sh tx k = .ok sh := if_neg hType

theorem checkReveal_of_ne (hType : tx.type ≠ .reveal) : V.checkReveal sh tx = .ok sh :=
  if_neg hType

theorem checkTransfer_of_ne (hTransfer : tx.type ≠ .transfer) (hBuy : tx.type ≠ .buy) :
    V.checkTransfer sh tx k = .ok sh := by
  unfold checkTransfer
  rw [if_neg hTransfer, if_neg hBuy]
  rfl

/-- The gates on the market: a transaction of another type passes all but the one on reveals
without a trace. -/
theorem maps_of_no_market (hMarket : tx.type ≠ .buy ∧ tx.type ≠ .list ∧ tx.type ≠ .delist ∧
      tx.type ≠ .transfer ∧ tx.type ≠ .register)
    (h : V.checkDomainGates sh tx k balance = .ok (balance', sh')) :
    V.checkUpdateRevoke sh tx k = .ok () ∧ ∃ revealed, V.checkReveal sh tx = .ok revealed ∧
      sh' = recordTx revealed tx := by
  obtain ⟨hBuy, hList, hDelist, hTransfer, hRegister⟩ := hMarket
  obtain ⟨b, sh₁, sh₂, sh₃, sh₄, sh₅, h₁, h₂, hUpdate, -, h₃, hReveal, h₅, rfl⟩ :=
    checkDomainGates_eq_ok h
  obtain ⟨-, rfl⟩ := Prod.mk.inj (Except.ok.inj ((checkBuy_of_ne hBuy).symm.trans h₁))
  obtain rfl := Except.ok.inj ((checkListing_of_ne hList hDelist).symm.trans h₂)
  obtain rfl := Except.ok.inj ((checkRegister_of_ne hRegister).symm.trans h₃)
  obtain rfl := Except.ok.inj ((checkTransfer_of_ne hTransfer hBuy).symm.trans h₅)
  exact ⟨hUpdate, sh₄, hReveal, rfl⟩

theorem maps_of_reveal (hType : tx.type = .reveal)
    (h : V.checkDomainGates sh tx k balance = .ok (balance', sh')) :
    ∃ rec, Opens V tx rec ∧ sh.commit (revealKey V.E tx) = false ∧
      sh'.owner = Function.update sh.owner tx.domainName (some (hexEncode tx.recipient)) ∧
      sh'.forSale = sh.forSale ∧
      sh'.commit = Function.update sh.commit (revealKey V.E tx) true := by
  obtain ⟨-, revealed, hReveal, rfl⟩ := maps_of_no_market (by simp [hType]) h
  obtain ⟨hOwner, hForSale, hCommit⟩ := maps_recordTx revealed tx
  rw [hOwner, hForSale, hCommit]
  obtain ⟨rec, hOpens, hFresh, rfl⟩ := checkReveal_eq_ok hReveal hType
  exact ⟨rec, hOpens, hFresh, rfl, rfl, rfl⟩

/-- No gate writes a shadow for a transaction that is neither of the market nor a REVEAL. -/
theorem maps_of_no_reveal (hMarket : tx.type ≠ .buy ∧ tx.type ≠ .list ∧ tx.type ≠ .delist ∧
      tx.type ≠ .transfer ∧ tx.type ≠ .register) (hReveal : tx.type ≠ .reveal)
    (h : V.checkDomainGates sh tx k balance = .ok (balance', sh')) :
    (tx.type = .update ∨ tx.type = .revoke → V.currentOwner sh tx.domainName = k) ∧
      sh'.owner = sh.owner ∧ sh'.forSale = sh.forSale ∧ sh'.commit = sh.commit := by
  obtain ⟨hUpdate, revealed, hRevealed, rfl⟩ := maps_of_no_market hMarket h
  obtain rfl := Except.ok.inj ((checkReveal_of_ne hReveal).symm.trans hRevealed)
  refine ⟨fun hType => ?_, maps_recordTx sh tx⟩
  unfold checkUpdateRevoke at hUpdate
  rw [if_pos hType] at hUpdate
  obtain ⟨_, -, hOwner⟩ := bind_eq_ok.mp hUpdate
  exact requireNaming_eq_ok.mp hOwner

theorem maps_of_listing (hType : tx.type = .list ∨ tx.type = .delist)
    (h : V.checkDomainGates sh tx k balance = .ok (balance', sh')) :
    V.currentOwner sh tx.domainName = k ∧
      (tx.type = .delist → V.isListed sh tx.domainName = true) ∧ sh'.owner = sh.owner ∧
      sh'.forSale = Function.update sh.forSale tx.domainName
        (some (if tx.type = .list then tx.listPrice else 0)) ∧ sh'.commit = sh.commit := by
  have hBuy : tx.type ≠ .buy := by rcases hType with hType | hType <;> simp [hType]
  have hRegister : tx.type ≠ .register := by rcases hType with hType | hType <;> simp [hType]
  have hReveal : tx.type ≠ .reveal := by rcases hType with hType | hType <;> simp [hType]
  have hTransfer : tx.type ≠ .transfer := by rcases hType with hType | hType <;> simp [hType]
  obtain ⟨b, sh₁, sh₂, sh₃, sh₄, sh₅, h₁, h₂, -, -, h₃, h₄, h₅, rfl⟩ := checkDomainGates_eq_ok h
  obtain ⟨-, rfl⟩ := Prod.mk.inj (Except.ok.inj ((checkBuy_of_ne hBuy).symm.trans h₁))
  obtain rfl := Except.ok.inj ((checkRegister_of_ne hRegister).symm.trans h₃)
  obtain rfl := Except.ok.inj ((checkReveal_of_ne hReveal).symm.trans h₄)
  obtain rfl := Except.ok.inj ((checkTransfer_of_ne hTransfer hBuy).symm.trans h₅)
  obtain ⟨hOwner, hForSale, hCommit⟩ := maps_recordTx sh₂ tx
  rw [hOwner, hForSale, hCommit]
  unfold checkListing at h₂
  rw [if_pos hType] at h₂
  obtain ⟨_, hSigner, h₂⟩ := bind_eq_ok.mp h₂
  refine ⟨requireNaming_eq_ok.mp hSigner, ?_⟩
  split at h₂
  · rename_i hList
    obtain rfl := pure_eq_ok.mp h₂
    rw [if_pos hList]
    exact ⟨fun hDelist => absurd (hList.symm.trans hDelist) (by decide), rfl, rfl, rfl⟩
  · rename_i hList
    obtain ⟨_, hListed, h₂⟩ := bind_eq_ok.mp h₂
    obtain rfl := pure_eq_ok.mp h₂
    rw [if_neg hList]
    exact ⟨fun _ => require_eq_ok.mp hListed, rfl, rfl, rfl⟩

theorem maps_of_buy (hType : tx.type = .buy)
    (h : V.checkDomainGates sh tx k balance = .ok (balance', sh')) :
    V.isListed sh tx.domainName = true ∧ V.currentPrice sh tx.domainName ≤ tx.listPrice ∧
      V.currentOwner sh tx.domainName ≠ k ∧
      sh'.owner = Function.update sh.owner tx.domainName (some k) ∧
      sh'.forSale = Function.update sh.forSale tx.domainName (some 0) ∧
      sh'.commit = sh.commit := by
  obtain ⟨b, sh₁, sh₂, sh₃, sh₄, sh₅, h₁, h₂, -, -, h₃, h₄, h₅, rfl⟩ := checkDomainGates_eq_ok h
  obtain rfl := Except.ok.inj ((checkListing_of_ne (by simp [hType]) (by simp [hType])).symm.trans h₂)
  obtain rfl := Except.ok.inj ((checkRegister_of_ne (by simp [hType])).symm.trans h₃)
  obtain rfl := Except.ok.inj ((checkReveal_of_ne (by simp [hType])).symm.trans h₄)
  obtain ⟨hOwner, hForSale, hCommit⟩ := maps_recordTx sh₅ tx
  rw [hOwner, hForSale, hCommit]
  unfold checkTransfer at h₅
  rw [if_neg (by simp [hType]), if_pos hType] at h₅
  obtain rfl := pure_eq_ok.mp h₅
  unfold checkBuy at h₁
  rw [if_pos hType] at h₁
  obtain ⟨_, hListed, h₁⟩ := bind_eq_ok.mp h₁
  obtain ⟨_, -, h₁⟩ := bind_eq_ok.mp h₁
  obtain ⟨_, hPrice, h₁⟩ := bind_eq_ok.mp h₁
  obtain ⟨_, hOther, h₁⟩ := bind_eq_ok.mp h₁
  obtain ⟨-, rfl⟩ := Prod.mk.inj (pure_eq_ok.mp h₁)
  exact ⟨require_eq_ok.mp hListed, require_eq_ok.mp hPrice, requireNaming_eq_ok.mp hOther,
    rfl, rfl, rfl⟩

theorem maps_of_transfer (hType : tx.type = .transfer)
    (h : V.checkDomainGates sh tx k balance = .ok (balance', sh')) :
    V.currentOwner sh tx.domainName = k ∧
      sh'.owner = Function.update sh.owner tx.domainName (some (hexEncode tx.recipient)) ∧
      sh'.forSale = Function.update sh.forSale tx.domainName (some 0) ∧
      sh'.commit = sh.commit := by
  obtain ⟨b, sh₁, sh₂, sh₃, sh₄, sh₅, h₁, h₂, -, -, h₃, h₄, h₅, rfl⟩ := checkDomainGates_eq_ok h
  obtain ⟨-, rfl⟩ := Prod.mk.inj (Except.ok.inj ((checkBuy_of_ne (by simp [hType])).symm.trans h₁))
  obtain rfl := Except.ok.inj ((checkListing_of_ne (by simp [hType]) (by simp [hType])).symm.trans h₂)
  obtain rfl := Except.ok.inj ((checkRegister_of_ne (by simp [hType])).symm.trans h₃)
  obtain rfl := Except.ok.inj ((checkReveal_of_ne (by simp [hType])).symm.trans h₄)
  obtain ⟨hOwner, hForSale, hCommit⟩ := maps_recordTx sh₅ tx
  rw [hOwner, hForSale, hCommit]
  unfold checkTransfer at h₅
  rw [if_pos hType] at h₅
  obtain ⟨_, hSigner, h₅⟩ := bind_eq_ok.mp h₅
  obtain rfl := pure_eq_ok.mp h₅
  exact ⟨requireNaming_eq_ok.mp hSigner, rfl, rfl, rfl⟩

end Gates

/-- Every accepted transaction falls under one of the cases. -/
theorem domainGate_of_validateTx {sh sh' : Shadow} (h : V.validateTx sh tx = .ok sh') :
    DomainGate V sh.domains tx sh'.domains.owner sh'.domains.forSale sh'.domains.commit := by
  have hRegister := type_ne_register_of_validateTx h
  obtain ⟨domains, hForm, hRest⟩ := validateTx_eq_ok h
  obtain ⟨hRedeems, spent, hForm⟩ := checkForm_eq_ok hForm
  obtain ⟨hKey, -, rfl⟩ | ⟨hKey, b₁, b₂, domains', coins', -, hGates, -, rfl⟩ := hRest
  · have hType := type_of_ownerless h hKey
    obtain ⟨-, rfl⟩ | ⟨hCommit, -⟩ := hForm
    · exact .autoRevoke hType hKey (hRedeems (.inr (.inr hType)))
    · exact absurd (hType.symm.trans hCommit) (by decide)
  · dsimp only
    obtain ⟨hCommit, rfl⟩ | ⟨hCommit, hLength, rfl⟩ := hForm
    · cases hType : tx.type with
      | register => exact absurd hType hRegister
      | commit => exact absurd hType hCommit
      | reveal =>
        obtain ⟨rec, hOpens, hFresh, hMaps⟩ := maps_of_reveal hType hGates
        rw [hMaps.1, hMaps.2.1, hMaps.2.2]
        exact .reveal hType rec hOpens hFresh
      | list =>
        obtain ⟨hOwner, -, hMaps⟩ := maps_of_listing (.inl hType) hGates
        rw [hMaps.1, hMaps.2.1, hMaps.2.2, if_pos hType]
        exact .list hType hKey hOwner
      | delist =>
        obtain ⟨hOwner, hListed, hMaps⟩ := maps_of_listing (.inr hType) hGates
        rw [hMaps.1, hMaps.2.1, hMaps.2.2, if_neg (by simp [hType])]
        exact .delist hType hKey (hListed hType) hOwner
      | buy =>
        obtain ⟨hListed, hPrice, hOther, hMaps⟩ := maps_of_buy hType hGates
        rw [hMaps.1, hMaps.2.1, hMaps.2.2]
        exact .buy hType hKey hListed hPrice hOther
      | transfer =>
        obtain ⟨hOwner, hMaps⟩ := maps_of_transfer hType hGates
        rw [hMaps.1, hMaps.2.1, hMaps.2.2]
        exact .transfer hType hKey hOwner
      | update =>
        obtain ⟨hOwner, hMaps⟩ := maps_of_no_reveal (by simp [hType]) (by simp [hType]) hGates
        rw [hMaps.1, hMaps.2.1, hMaps.2.2]
        exact .change (.inl hType) hKey (hRedeems (.inl hType)) (hOwner (.inl hType))
      | revoke =>
        obtain ⟨hOwner, hMaps⟩ := maps_of_no_reveal (by simp [hType]) (by simp [hType]) hGates
        rw [hMaps.1, hMaps.2.1, hMaps.2.2]
        exact .change (.inr hType) hKey (hRedeems (.inr (.inr hType))) (hOwner (.inr hType))
      | renew =>
        obtain ⟨-, hMaps⟩ := maps_of_no_reveal (by simp [hType]) (by simp [hType]) hGates
        rw [hMaps.1, hMaps.2.1, hMaps.2.2]
        exact .renew hType (hRedeems (.inr (.inl hType)))
      | other code hCode =>
        obtain ⟨-, hMaps⟩ := maps_of_no_reveal (by simp [hType]) (by simp [hType]) hGates
        rw [hMaps.1, hMaps.2.1, hMaps.2.2]
        exact .other (.inr (.inr (.inr (.inr ⟨code, hCode, hType⟩))))
      | _ =>
        obtain ⟨-, hMaps⟩ := maps_of_no_reveal (by simp [hType]) (by simp [hType]) hGates
        rw [hMaps.1, hMaps.2.1, hMaps.2.2]
        exact .other (by simp [hType])
    · obtain ⟨-, hMaps⟩ := maps_of_no_reveal (by simp [hCommit]) (by simp [hCommit]) hGates
      rw [hMaps.1, hMaps.2.1, hMaps.2.2]
      exact .commit hCommit hLength

/-! ## What is registered and what is redeemed in the list -/

theorem kept_checkBuy {sh sh' : DomainShadow} {k : Bytes} {balance balance' : UInt64}
    (h : V.checkBuy sh tx k balance = .ok (balance', sh')) :
    sh'.registered = sh.registered ∧ sh'.spent = sh.spent := by
  unfold checkBuy at h
  split at h
  · obtain ⟨_, -, h⟩ := bind_eq_ok.mp h
    obtain ⟨_, -, h⟩ := bind_eq_ok.mp h
    obtain ⟨_, -, h⟩ := bind_eq_ok.mp h
    obtain ⟨_, -, h⟩ := bind_eq_ok.mp h
    obtain ⟨-, rfl⟩ := Prod.mk.inj (pure_eq_ok.mp h)
    exact ⟨rfl, rfl⟩
  · obtain ⟨-, rfl⟩ := Prod.mk.inj (pure_eq_ok.mp h)
    exact ⟨rfl, rfl⟩

theorem kept_checkListing {sh sh' : DomainShadow} {k : Bytes}
    (h : V.checkListing sh tx k = .ok sh') :
    sh'.registered = sh.registered ∧ sh'.spent = sh.spent := by
  unfold checkListing at h
  split at h
  · obtain ⟨_, -, h⟩ := bind_eq_ok.mp h
    split at h
    · obtain rfl := pure_eq_ok.mp h
      exact ⟨rfl, rfl⟩
    · obtain ⟨_, -, h⟩ := bind_eq_ok.mp h
      obtain rfl := pure_eq_ok.mp h
      exact ⟨rfl, rfl⟩
  · obtain rfl := pure_eq_ok.mp h
    exact ⟨rfl, rfl⟩

theorem kept_checkTransfer {sh sh' : DomainShadow} {k : Bytes}
    (h : V.checkTransfer sh tx k = .ok sh') :
    sh'.registered = sh.registered ∧ sh'.spent = sh.spent := by
  unfold checkTransfer at h
  split at h
  · obtain ⟨_, -, h⟩ := bind_eq_ok.mp h
    obtain rfl := pure_eq_ok.mp h
    exact ⟨rfl, rfl⟩
  · split at h <;> obtain rfl := pure_eq_ok.mp h <;> exact ⟨rfl, rfl⟩

theorem kept_recordTx (sh : DomainShadow) (tx : Transaction) :
    (recordTx sh tx).registered = sh.registered ∧ (recordTx sh tx).spent = sh.spent := by
  unfold recordTx
  split <;> exact ⟨rfl, rfl⟩

/-- Of the gates on domains only that for REVEAL counts a domain as registered, and none marks
anything as spent. -/
theorem kept_checkDomainGates {sh sh' : DomainShadow} {k : Bytes} {balance balance' : UInt64}
    (hRegister : tx.type ≠ .register)
    (h : V.checkDomainGates sh tx k balance = .ok (balance', sh')) :
    sh'.spent = sh.spent ∧ sh'.registered =
      if tx.type = .reveal then Function.update sh.registered tx.domainName true
      else sh.registered := by
  obtain ⟨b, sh₁, sh₂, sh₃, sh₄, sh₅, h₁, h₂, -, -, h₃, h₄, h₅, rfl⟩ := checkDomainGates_eq_ok h
  obtain rfl := Except.ok.inj ((checkRegister_of_ne hRegister).symm.trans h₃)
  obtain ⟨hBuy, hBuy'⟩ := kept_checkBuy h₁
  obtain ⟨hList, hList'⟩ := kept_checkListing h₂
  obtain ⟨hTransfer, hTransfer'⟩ := kept_checkTransfer h₅
  rw [(kept_recordTx sh₅ tx).1, (kept_recordTx sh₅ tx).2, hTransfer, hTransfer']
  by_cases hType : tx.type = .reveal
  · obtain ⟨rec, -, -, rfl⟩ := checkReveal_eq_ok h₄ hType
    dsimp only
    rw [if_pos hType, hList, hBuy, hList', hBuy']
    exact ⟨rfl, rfl⟩
  · obtain rfl := Except.ok.inj ((checkReveal_of_ne hType).symm.trans h₄)
    rw [if_neg hType, hList, hBuy, hList', hBuy']
    exact ⟨rfl, rfl⟩

/-- Only a REVEAL counts a domain as registered. -/
theorem registered_validateTx {sh sh' : Shadow} (h : V.validateTx sh tx = .ok sh') (d : Bytes) :
    sh'.domains.registered d = true ↔
      sh.domains.registered d = true ∨ tx.type = .reveal ∧ tx.domainName = d := by
  have hRegister := type_ne_register_of_validateTx h
  obtain ⟨domains, hForm, hRest⟩ := validateTx_eq_ok h
  have hSame : domains.registered = sh.domains.registered := by
    obtain ⟨-, spent, ⟨-, rfl⟩ | ⟨-, -, rfl⟩⟩ := checkForm_eq_ok hForm <;> rfl
  obtain ⟨hKey, -, rfl⟩ | ⟨-, b₁, b₂, domains', coins', -, hGates, -, rfl⟩ := hRest
  · have hRevoke := type_of_ownerless h hKey
    simp [hSame, hRevoke]
  · rw [(kept_checkDomainGates hRegister hGates).2, hSame]
    split
    · rename_i hType
      rw [Function.update_apply]
      by_cases hName : tx.domainName = d
      · simp [hType, hName]
      · simp [hName, Ne.symm hName]
    · rename_i hType
      simp [hType]

/-- The slot leader does not revoke what the list has registered. -/
theorem unregistered_of_ownerless {sh sh' : Shadow} (h : V.validateTx sh tx = .ok sh')
    (hKey : tx.ownerKey.length = 0) : sh.domains.registered tx.domainName = false := by
  obtain ⟨domains, hForm, ⟨-, hOwnerless, -⟩ | ⟨hSigned, -⟩⟩ := validateTx_eq_ok h
  · have hSame : domains.registered = sh.domains.registered := by
      obtain ⟨-, spent, ⟨-, rfl⟩ | ⟨-, -, rfl⟩⟩ := checkForm_eq_ok hForm <;> rfl
    unfold checkOwnerless at hOwnerless
    simp only [bind_eq_ok, require_eq_ok, exists_const] at hOwnerless
    rw [← hSame]
    exact hOwnerless.2.2.2
  · exact absurd hKey hSigned

theorem registered_run {before : List Transaction} {sh : Shadow} (h : V.run before = .ok sh)
    (d : Bytes) :
    sh.domains.registered d = true ↔ ∃ tx ∈ before, tx.type = .reveal ∧ tx.domainName = d := by
  induction before using List.reverseRecOn generalizing sh with
  | nil =>
    obtain rfl := pure_eq_ok.mp h
    simp
  | append_singleton before tx ih =>
    obtain ⟨sh₁, hBefore, hStep⟩ := run_concat.mp h
    rw [registered_validateTx hStep, ih hBefore]
    simp [or_and_right, exists_or]

/-- The number that a transaction redeems was not spent in the list, and is from then on. -/
theorem spent_checkForm {sh sh' : DomainShadow} (h : V.checkForm sh tx = .ok sh') :
    (∀ txID, sh.spent txID = true → sh'.spent txID = true) ∧
      (tx.type = .update ∨ tx.type = .renew ∨ tx.type = .revoke →
        sh.spent tx.redeemsTxID = false ∧ sh'.spent tx.redeemsTxID = true) := by
  have hNumber := (checkForm_eq_ok h).1
  rw [spent_eq_of_checkForm h]
  refine ⟨fun _ => spentAfter_of_spent, fun hType => ?_⟩
  have hUses : tx.type = .update ∨ tx.type = .renew ∨ tx.type = .revoke ∨ tx.type = .reveal := by
    rcases hType with hType | hType | hType <;> simp [hType]
  obtain ⟨redeemed, hFormed⟩ := formed_of_checkForm h
  refine ⟨((checkRedeems_eq_ok hFormed.redeems).2 (hNumber hType) hUses).1, ?_⟩
  rw [spentAfter, if_pos ⟨hNumber hType, .inr hUses⟩, Function.update_self]

theorem spent_validateTx {sh sh' : Shadow} (h : V.validateTx sh tx = .ok sh') :
    (∀ txID, sh.domains.spent txID = true → sh'.domains.spent txID = true) ∧
      (tx.type = .update ∨ tx.type = .renew ∨ tx.type = .revoke →
        sh.domains.spent tx.redeemsTxID = false ∧ sh'.domains.spent tx.redeemsTxID = true) := by
  obtain ⟨domains, hForm, hRest⟩ := validateTx_eq_ok h
  obtain ⟨-, -, rfl⟩ | ⟨-, b₁, b₂, domains', coins', -, hGates, -, rfl⟩ := hRest
  · exact spent_checkForm hForm
  · dsimp only
    rw [(kept_checkDomainGates (type_ne_register_of_validateTx h) hGates).1]
    exact spent_checkForm hForm

theorem spent_run {before : List Transaction} {sh : Shadow} (h : V.run before = .ok sh) :
    ∀ tx ∈ before, tx.type = .update ∨ tx.type = .renew ∨ tx.type = .revoke →
      sh.domains.spent tx.redeemsTxID = true := by
  induction before using List.reverseRecOn generalizing sh with
  | nil => simp
  | append_singleton before tx ih =>
    obtain ⟨sh₁, hBefore, hStep⟩ := run_concat.mp h
    obtain ⟨hKept, hOwn⟩ := spent_validateTx hStep
    intro u hu hType
    rcases List.mem_append.mp hu with hOld | hNew
    · exact hKept _ (ih hBefore u hOld hType)
    · obtain rfl := List.mem_singleton.mp hNew
      exact (hOwn hType).2

/-- UPDATE and signed REVOKE find their domain before the end of its grace period. -/
theorem phase_of_validateTx {sh sh' : Shadow} (h : V.validateTx sh tx = .ok sh')
    (hType : tx.type = .update ∨ tx.type = .revoke) (hKey : tx.ownerKey.length ≠ 0)
    {existingTx : Transaction} (hExisting : V.im.getDomain tx.domainName = some existingTx) :
    sh.domains.registered tx.domainName = true ∨ V.phaseOf existingTx ≠ .purged := by
  obtain ⟨domains, hForm, hRest⟩ := validateTx_eq_ok h
  have hSame : domains.registered = sh.domains.registered := by
    obtain ⟨-, spent, ⟨-, rfl⟩ | ⟨-, -, rfl⟩⟩ := checkForm_eq_ok hForm <;> rfl
  obtain ⟨hNone, -⟩ | ⟨-, b₁, b₂, domains', coins', -, hGates, -⟩ := hRest
  · exact absurd hNone hKey
  · have hMarket : tx.type ≠ .buy ∧ tx.type ≠ .list ∧ tx.type ≠ .delist ∧ tx.type ≠ .transfer ∧
        tx.type ≠ .register := by
      rcases hType with hType | hType <;> simp [hType]
    obtain ⟨hUpdate, -⟩ := maps_of_no_market hMarket hGates
    unfold checkUpdateRevoke at hUpdate
    rw [if_pos hType] at hUpdate
    obtain ⟨_, hPhase, -⟩ := bind_eq_ok.mp hUpdate
    unfold domainIn at hPhase
    rw [hExisting, hSame] at hPhase
    exact require_eq_ok.mp hPhase

end Validation

end Bdns.Blockchain
