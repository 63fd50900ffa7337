import Bdns.Safety.MapOrder

/-!
# Overlays over another index

An overlay reads the index under it through a few queries only. Over an index that answers these
alike (`SameAnswers`), every domain mutation takes the same branch and writes the same journal
(`applyDomainMutations_reroot`), and so does the pass over a block (`domainPass_reroot`). The trees
of the two indexes may have different shapes.
-/

namespace Bdns.Safety

open Lib Blockchain Network Index

/-! ## Overlays over another index -/

/-- Two indexes that answer alike. -/
structure SameAnswers (E : External) (im im' : IndexManager) : Prop where
  getDomain : ∀ d, im'.getDomain E d = im.getDomain E d
  getOwner : ∀ d, im'.getOwner E d = im.getOwner E d
  getListPrice : ∀ d, im'.getListPrice E d = im.getListPrice E d
  getTxByID : ∀ txID, im'.getTxByID txID = im.getTxByID txID
  isSpent : ∀ txID, im'.isSpent txID = im.isSpent txID

/-- The same journal over another index. -/
def reroot (im : IndexManager) (o : IndexOverlay) : IndexOverlay := { o with real := im }

def rerootState (im : IndexManager) (st : DomainState) : DomainState :=
  { st with im := reroot im st.im }

section Reroot

variable {E : External} {im : IndexManager} {o : IndexOverlay}

theorem getDomain_reroot (h : SameAnswers E o.real im) (d : Bytes) :
    (reroot im o).getDomain E d = o.getDomain E d := by
  unfold IndexOverlay.getDomain reroot
  dsimp only
  rw [h.getDomain]

theorem getOwner_reroot (h : SameAnswers E o.real im) (d : Bytes) :
    (reroot im o).getOwner E d = o.getOwner E d := by
  unfold IndexOverlay.getOwner reroot
  dsimp only
  rw [h.getOwner]

theorem getListPrice_reroot (h : SameAnswers E o.real im) (d : Bytes) :
    (reroot im o).getListPrice E d = o.getListPrice E d := by
  unfold IndexOverlay.getListPrice reroot
  dsimp only
  rw [h.getListPrice]

theorem isForSale_reroot (h : SameAnswers E o.real im) (d : Bytes) :
    (reroot im o).isForSale E d = o.isForSale E d := by
  rw [IndexOverlay.isForSale_eq, IndexOverlay.isForSale_eq, getListPrice_reroot h]

theorem getTxByID_reroot (h : SameAnswers E o.real im)
    (range : List (Bytes × OverlayEntry) → List (Bytes × OverlayEntry)) (txID : Int64) :
    (reroot im o).getTxByID range txID = o.getTxByID range txID := by
  unfold IndexOverlay.getTxByID reroot
  dsimp only
  rw [h.getTxByID]

theorem isSpent_reroot (h : SameAnswers E o.real im) (txID : Int64) :
    (reroot im o).isSpent txID = o.isSpent txID := by
  unfold IndexOverlay.isSpent reroot
  dsimp only
  rw [h.isSpent]

theorem entryFor_reroot (h : SameAnswers E o.real im) (d : Bytes) :
    (reroot im o).entryFor E d = o.entryFor E d := by
  unfold IndexOverlay.entryFor reroot
  dsimp only
  rw [h.getDomain]

theorem setOwner_reroot (h : SameAnswers E o.real im) (d : Bytes) (ownerKey : Option Bytes) :
    (reroot im o).setOwner E d ownerKey = reroot im (o.setOwner E d ownerKey) := by
  unfold IndexOverlay.setOwner
  rw [entryFor_reroot h]
  rfl

theorem setListPrice_reroot (h : SameAnswers E o.real im) (d : Bytes) (price : UInt64) :
    (reroot im o).setListPrice E d price = reroot im (o.setListPrice E d price) := by
  unfold IndexOverlay.setListPrice
  rw [entryFor_reroot h]
  rfl

end Reroot

/-! ## One transaction over the two indexes -/

/-- The result of a transaction, moved to another index. -/
def rerootResult (im : IndexManager) (result : DomainResult) : DomainResult :=
  result.map fun r => (rerootState im r.1, r.2)

section Step

variable {E : External} {pos : Position} {tx : Transaction} {st : DomainState} {im : IndexManager}

theorem phaseOutside_reroot (h : SameAnswers E st.im.real im) (acceptable : Phase → Bool) :
    phaseOutside E pos tx (rerootState im st) acceptable = phaseOutside E pos tx st acceptable := by
  unfold phaseOutside rerootState
  dsimp only
  rw [getDomain_reroot h]

theorem inActivePhase_reroot (h : SameAnswers E st.im.real im) :
    inActivePhase E pos tx (rerootState im st) = inActivePhase E pos tx st := by
  unfold inActivePhase rerootState
  dsimp only
  rw [getDomain_reroot h]

theorem ownedBySigner_reroot (h : SameAnswers E st.im.real im) :
    ownedBySigner E tx (rerootState im st) = ownedBySigner E tx st := by
  unfold ownedBySigner rerootState
  dsimp only
  rw [getOwner_reroot h]

theorem redeemsOwnDomain_reroot (h : SameAnswers E st.im.real im) :
    redeemsOwnDomain pos tx (rerootState im st) = redeemsOwnDomain pos tx st := by
  unfold redeemsOwnDomain rerootState
  dsimp only
  rw [getTxByID_reroot h]

theorem keepOwner_reroot {o : IndexOverlay} (h : SameAnswers E o.real im) (d : Bytes)
    (owner : Option Bytes) :
    keepOwner E d owner (reroot im o) = reroot im (keepOwner E d owner o) := by
  cases owner with
  | none => rfl
  | some owner => exact setOwner_reroot h d (some owner)

theorem revokeDomain_reroot (h : SameAnswers E st.im.real im) :
    revokeDomain E pos tx (rerootState im st) = rerootState im (revokeDomain E pos tx st) := by
  have hOwner : (rerootState im st).im.getOwner E tx.domainName =
      st.im.getOwner E tx.domainName := getOwner_reroot h tx.domainName
  have hSpent : spentDomain tx (rerootState im st) = reroot im (spentDomain tx st) := by
    unfold spentDomain
    split <;> rfl
  have hReal : (addDomain pos tx { st with im := spentDomain tx st } tx).real = st.im.real := by
    unfold spentDomain
    split <;> rfl
  have hIm : (revokeDomain E pos tx (rerootState im st)).im =
      reroot im (revokeDomain E pos tx st).im := by
    rw [im_revokeDomain, im_revokeDomain, hOwner, ← keepOwner_reroot (hReal ▸ h), hSpent]
    rfl
  exact congrArg (fun im => ({ st with im } : DomainState)) hIm

theorem storeTx_reroot (h : SameAnswers E st.im.real im) (isRenew : Bool) :
    storeTx E tx (rerootState im st) isRenew = storeTx E tx st isRenew := by
  unfold storeTx rerootState
  dsimp only
  rw [getDomain_reroot h]

theorem replaceDomain_reroot (h : SameAnswers E st.im.real im) (isRenew : Bool) :
    replaceDomain E pos tx (rerootState im st) isRenew =
      rerootState im (replaceDomain E pos tx st isRenew) := by
  have hOwner : (rerootState im st).im.getOwner E tx.domainName =
      st.im.getOwner E tx.domainName := getOwner_reroot h tx.domainName
  have hPrice : (rerootState im st).im.getListPrice E tx.domainName =
      st.im.getListPrice E tx.domainName := getListPrice_reroot h tx.domainName
  have hAdded : SameAnswers E (addDomain pos tx { st with im := st.im.markAsSpent tx.redeemsTxID }
      (storeTx E tx st isRenew)).real im := h
  have hPriced : pricedDomain E pos tx (rerootState im st) isRenew =
      reroot im (pricedDomain E pos tx st isRenew) := by
    unfold pricedDomain
    rw [hPrice, storeTx_reroot h]
    dsimp only
    split
    · exact setListPrice_reroot hAdded _ _
    · rfl
  have hReal : (pricedDomain E pos tx st isRenew).real = st.im.real := by
    unfold pricedDomain
    dsimp only
    split <;> rfl
  have hIm : (replaceDomain E pos tx (rerootState im st) isRenew).im =
      reroot im (replaceDomain E pos tx st isRenew).im := by
    rw [im_replaceDomain, im_replaceDomain, hOwner, ← keepOwner_reroot (hReal ▸ h), hPriced]
  exact congrArg (fun im => ({ st with im } : DomainState)) hIm

/-- A result with another overlay. -/
theorem pure_reroot {o o' : IndexOverlay} (hIm : o' = reroot im o) (ledger : BalanceLedger)
    (cs : CommitOverlay) (err : Option Bytes) :
    (pure (⟨ledger, o', cs⟩, err) : DomainResult) = rerootResult im (pure (⟨ledger, o, cs⟩, err)) := by
  rw [hIm]
  rfl

/-- An error with the prefix of a key in its text. -/
theorem bind_keyPrefix_reroot (key : Bytes) (text : Bytes → Bytes) :
    (keyPrefix key >>= fun short => pure (rerootState im st, some (text short)) : DomainResult) =
      rerootResult im (keyPrefix key >>= fun short => pure (st, some (text short))) := by
  cases keyPrefix key <;> rfl

theorem applyRegister_reroot (h : SameAnswers E st.im.real im) :
    applyRegister E pos tx (rerootState im st) = rerootResult im (applyRegister E pos tx st) := by
  have hAdded : SameAnswers E (addDomain pos tx st tx).real im := h
  unfold applyRegister
  rw [phaseOutside_reroot h]
  cases phaseOutside E pos tx st (· == .purged) with
  | some phase => rfl
  | none =>
    dsimp only
    split
    · rfl
    · exact pure_reroot (setOwner_reroot hAdded _ _) _ _ _

theorem applyReveal_reroot (h : SameAnswers E st.im.real im) :
    applyReveal E pos tx (rerootState im st) = rerootResult im (applyReveal E pos tx st) := by
  have hAdded : SameAnswers E (addDomain pos tx st tx).real im := h
  have hSame : (rerootState im st).cs = st.cs := rfl
  unfold applyReveal
  rw [phaseOutside_reroot h, hSame]
  dsimp only
  cases st.cs.getCommit (Validation.revealKey E tx) with
  | none => rfl
  | some record =>
    cases phaseOutside E pos tx st (· == .purged) with
    | some phase => rfl
    | none =>
      exact pure_reroot (congrArg (IndexOverlay.markAsSpent · tx.redeemsTxID)
        (setOwner_reroot hAdded _ _)) _ _ _

theorem applyRevoke_reroot (h : SameAnswers E st.im.real im) :
    applyRevoke E pos tx (rerootState im st) = rerootResult im (applyRevoke E pos tx st) := by
  have hDomain : (rerootState im st).im.getDomain E tx.domainName =
      st.im.getDomain E tx.domainName := getDomain_reroot h tx.domainName
  unfold applyRevoke
  rw [ownedBySigner_reroot h, redeemsOwnDomain_reroot h, hDomain, revokeDomain_reroot h]
  split
  · exact bind_keyPrefix_reroot _ _
  split
  · rfl
  split
  · cases st.im.getDomain E tx.domainName with
    | none => rfl
    | some existingTx =>
      dsimp only
      split <;> rfl
  · rfl

theorem applyUpdateOrRenew_reroot (h : SameAnswers E st.im.real im) (isRenew : Bool) :
    applyUpdateOrRenew E pos tx (rerootState im st) isRenew =
      rerootResult im (applyUpdateOrRenew E pos tx st isRenew) := by
  unfold applyUpdateOrRenew
  rw [redeemsOwnDomain_reroot h, replaceDomain_reroot h]
  dsimp only
  split
  · rfl
  split <;> rfl

theorem applyUpdate_reroot (h : SameAnswers E st.im.real im) :
    applyUpdate E pos tx (rerootState im st) = rerootResult im (applyUpdate E pos tx st) := by
  unfold applyUpdate
  rw [ownedBySigner_reroot h, phaseOutside_reroot h, applyUpdateOrRenew_reroot h]
  split
  · exact bind_keyPrefix_reroot _ _
  · cases phaseOutside E pos tx st (· == .active) <;> rfl

theorem applyRenew_reroot (h : SameAnswers E st.im.real im) :
    applyRenew E pos tx (rerootState im st) = rerootResult im (applyRenew E pos tx st) := by
  unfold applyRenew
  rw [phaseOutside_reroot h, applyUpdateOrRenew_reroot h]
  cases phaseOutside E pos tx st (· != .purged) <;> rfl

/-- The market operations start with the phase of the domain. -/
theorem bind_inActivePhase_reroot (h : SameAnswers E st.im.real im) {f f' : Bool → DomainResult}
    (hNext : ∀ active, f' active = rerootResult im (f active)) :
    inActivePhase E pos tx (rerootState im st) >>= f' =
      rerootResult im (inActivePhase E pos tx st >>= f) := by
  rw [inActivePhase_reroot h]
  cases inActivePhase E pos tx st with
  | error p => rfl
  | ok active => exact hNext active

theorem applyList_reroot (h : SameAnswers E st.im.real im) :
    applyList E pos tx (rerootState im st) = rerootResult im (applyList E pos tx st) := by
  have hOwner : (rerootState im st).im.getOwner E tx.domainName =
      st.im.getOwner E tx.domainName := getOwner_reroot h tx.domainName
  unfold applyList
  rw [hOwner]
  apply bind_inActivePhase_reroot h
  intro active
  split
  · rfl
  cases st.im.getOwner E tx.domainName with
  | none => rfl
  | some owner =>
    dsimp only
    split
    · exact bind_keyPrefix_reroot _ _
    · exact pure_reroot (setListPrice_reroot h _ _) _ _ _

theorem applyDelist_reroot (h : SameAnswers E st.im.real im) :
    applyDelist E pos tx (rerootState im st) = rerootResult im (applyDelist E pos tx st) := by
  have hOwner : (rerootState im st).im.getOwner E tx.domainName =
      st.im.getOwner E tx.domainName := getOwner_reroot h tx.domainName
  have hSale : (rerootState im st).im.isForSale E tx.domainName =
      st.im.isForSale E tx.domainName := isForSale_reroot h tx.domainName
  unfold applyDelist
  rw [hOwner, hSale]
  apply bind_inActivePhase_reroot h
  intro active
  split
  · rfl
  cases st.im.getOwner E tx.domainName with
  | none => rfl
  | some owner =>
    dsimp only
    split
    · rfl
    split
    · exact bind_keyPrefix_reroot _ _
    · exact pure_reroot (setListPrice_reroot h _ _) _ _ _

/-- The owner and the price that a BUY and a TRANSFER leave. -/
theorem resetOwner_reroot (h : SameAnswers E st.im.real im) (ownerKey : Option Bytes) :
    ((rerootState im st).im.setOwner E tx.domainName ownerKey).setListPrice E tx.domainName 0 =
      reroot im ((st.im.setOwner E tx.domainName ownerKey).setListPrice E tx.domainName 0) := by
  have hSet : SameAnswers E (st.im.setOwner E tx.domainName ownerKey).real im := h
  rw [← setListPrice_reroot hSet, ← setOwner_reroot h]
  rfl

theorem applyTransferDomain_reroot (h : SameAnswers E st.im.real im) :
    applyTransferDomain E pos tx (rerootState im st) =
      rerootResult im (applyTransferDomain E pos tx st) := by
  have hOwner : (rerootState im st).im.getOwner E tx.domainName =
      st.im.getOwner E tx.domainName := getOwner_reroot h tx.domainName
  unfold applyTransferDomain
  rw [hOwner]
  apply bind_inActivePhase_reroot h
  intro active
  split
  · rfl
  cases st.im.getOwner E tx.domainName with
  | none => rfl
  | some owner =>
    dsimp only
    split
    · exact bind_keyPrefix_reroot _ _
    · exact pure_reroot (resetOwner_reroot h _) _ _ _

theorem applyBuyDomain_reroot (h : SameAnswers E st.im.real im) :
    applyBuyDomain E pos tx (rerootState im st) =
      rerootResult im (applyBuyDomain E pos tx st) := by
  have hOwner : (rerootState im st).im.getOwner E tx.domainName =
      st.im.getOwner E tx.domainName := getOwner_reroot h tx.domainName
  have hPrice : (rerootState im st).im.getListPrice E tx.domainName =
      st.im.getListPrice E tx.domainName := getListPrice_reroot h tx.domainName
  have hSale : (rerootState im st).im.isForSale E tx.domainName =
      st.im.isForSale E tx.domainName := isForSale_reroot h tx.domainName
  have hLedger : (rerootState im st).ledger = st.ledger := rfl
  unfold applyBuyDomain
  rw [hOwner, hPrice, hSale, hLedger]
  apply bind_inActivePhase_reroot h
  intro active
  split
  · rfl
  split
  · rfl
  dsimp only
  split
  · exact bind_keyPrefix_reroot _ _
  split
  · rfl
  cases st.ledger.debit (hexEncode tx.ownerKey) (st.im.getListPrice E tx.domainName) with
  | error p => rfl
  | ok paid =>
    cases paid with
    | error err => exact bind_keyPrefix_reroot _ _
    | ok paid => exact pure_reroot (resetOwner_reroot h _) _ _ _

/-- A transaction over another index that answers alike takes the same branch. -/
theorem applyDomainMutations_reroot (h : SameAnswers E st.im.real im) :
    applyDomainMutations E pos tx (rerootState im st) =
      rerootResult im (applyDomainMutations E pos tx st) := by
  unfold applyDomainMutations
  cases tx.type with
  | register => exact applyRegister_reroot h
  | commit =>
    dsimp only
    unfold applyCommit
    split <;> rfl
  | reveal => exact applyReveal_reroot h
  | revoke => exact applyRevoke_reroot h
  | update => exact applyUpdate_reroot h
  | renew => exact applyRenew_reroot h
  | list => exact applyList_reroot h
  | buy => exact applyBuyDomain_reroot h
  | transfer => exact applyTransferDomain_reroot h
  | delist => exact applyDelist_reroot h
  | fund | stake | unstake | equivocationProof | other => rfl

end Step

/-! ## A pass over the two indexes -/

/-- The pass over a block writes the same journal over both indexes. -/
theorem domainPass_reroot {env : Env} {im : IndexManager} (order : JournalOrder)
    (slot blockIndex : Int64) (txs : List Transaction) {st : DomainState}
    (h : SameAnswers env.E st.im.real im) :
    domainPass env order slot blockIndex txs (rerootState im st) =
      (domainPass env order slot blockIndex txs st).map (rerootState im) := by
  induction txs using List.reverseRecOn with
  | nil => rfl
  | append_singleton txs tx ih =>
    rw [domainPass_append_singleton, domainPass_append_singleton, ih]
    cases hPass : domainPass env order slot blockIndex txs st with
    | error p => rfl
    | ok mid =>
      have hReal : mid.im.real = st.im.real := by
        refine domainPass_invariant (fun t => t.im.real = st.im.real) ?_ rfl hPass
        intro tx' _ i t t' err hSame hApply
        exact (real_of_effect (applyDomainMutations_eq_ok hApply)).trans hSame
      have hStep := @applyDomainMutations_reroot env.E
        (env.position order slot blockIndex txs.length) tx mid im (hReal ▸ h)
      change (applyDomainMutations env.E _ tx (rerootState im mid) >>= fun result =>
        pure result.1) = _
      rw [hStep]
      change _ = Except.map _ (applyDomainMutations env.E _ tx mid >>= fun result => pure result.1)
      cases applyDomainMutations env.E (env.position order slot blockIndex txs.length) tx mid <;> rfl

end Bdns.Safety
