import Bdns.Blockchain.ValidateBlock
import Bdns.Lib.SideBySide

/-!
# Two domain passes side by side

Two runs of the domain pass whose states differ where `ApplyDomainMutations` does not look: in the
order of stored records, in the places of transactions in their blocks, and in the locations that
the index keeps of them. The ledgers and the commits may differ in any way that a BUY, a COMMIT or
a REVEAL at hand does not notice. The two runs then take the same branches, and their states stay
alike.
-/

namespace Bdns.Safety

open Lib Blockchain Index Std

/-! ## States that are alike -/

/-- An index with other locations. -/
def relocated (im : IndexManager) (txLocations : Bytes → Option TxLocation) : IndexManager :=
  { im with txLocations }

section Alike

variable (S : List Record → List Record → Prop)

def TxAlike (tx tx' : Transaction) : Prop :=
  ∃ records, S tx.records records ∧ tx' = { tx with records }

/-- An entry that was not added holds the transaction of the real index. -/
def EntryAlike (e e' : OverlayEntry) : Prop :=
  ∃ tx txIndex, Option.Rel (TxAlike S) e.tx tx ∧ (e.added = false → tx = e.tx) ∧
    e' = { e with tx, txIndex }

def OverlayAlike (o o' : IndexOverlay) : Prop :=
  ∃ journal txLocations, (∀ d : Bytes, Option.Rel (EntryAlike S) o.journal[d]? journal[d]?) ∧
    o' = { o with journal, real := relocated o.real txLocations }

variable (L : BalanceLedger → BalanceLedger → Prop) (C : CommitOverlay → CommitOverlay → Prop)

structure StateAlike (st st' : DomainState) : Prop where
  im : OverlayAlike S st.im st'.im
  ledger : L st.ledger st'.ledger
  cs : C st.cs st'.cs

end Alike

/-! ## The overlays of the two runs -/

section Overlay

variable {S : List Record → List Record → Prop} [Std.Refl S] {E : External} {o o' : IndexOverlay}

theorem TxAlike.refl (tx : Transaction) : TxAlike S tx tx :=
  ⟨tx.records, Std.Refl.refl _, rfl⟩

theorem rel_txAlike_refl (tx : Option Transaction) : Option.Rel (TxAlike S) tx tx := by
  cases tx with
  | none => exact .none
  | some tx => exact .some (.refl tx)

theorem EntryAlike.refl (e : OverlayEntry) : EntryAlike S e e :=
  ⟨e.tx, e.txIndex, rel_txAlike_refl e.tx, fun _ => rfl, rfl⟩

omit [Std.Refl S] in
theorem EntryAlike.filter_tid {e e' : OverlayEntry} (h : EntryAlike S e e') (txID : Int64) :
    Option.Rel (TxAlike S) (e.tx.filter fun tx => tx.tid = txID)
      (e'.tx.filter fun tx => tx.tid = txID) := by
  obtain ⟨tx', txIndex, hTx, -, rfl⟩ := h
  dsimp only
  generalize e.tx = tx at hTx ⊢
  cases hTx with
  | none => exact .none
  | some hAlike =>
    obtain ⟨records, hRecords, rfl⟩ := hAlike
    simp only [Option.filter_some]
    split
    · exact .some ⟨records, hRecords, rfl⟩
    · exact .none

omit [Std.Refl S] in
theorem EntryAlike.addedTx {e e' : OverlayEntry} (h : EntryAlike S e e') :
    Option.Rel (TxAlike S) e.addedTx e'.addedTx := by
  obtain ⟨tx, txIndex, hTx, -, rfl⟩ := h
  unfold OverlayEntry.addedTx
  dsimp only
  split
  · exact hTx
  · exact .none

namespace OverlayAlike

theorem refl (o : IndexOverlay) : OverlayAlike S o o := by
  refine ⟨o.journal, o.real.txLocations, fun d => ?_, rfl⟩
  cases o.journal[d]? with
  | none => exact .none
  | some e => exact .some (.refl e)

omit [Std.Refl S] in
/-- Two fresh overlays over an index with other locations. -/
theorem fresh (im : IndexManager) (txLocations : Bytes → Option TxLocation) :
    OverlayAlike S (.newIndexOverlay im) (.newIndexOverlay (relocated im txLocations)) := by
  refine ⟨∅, txLocations, fun d => ?_, rfl⟩
  rw [IndexOverlay.newIndexOverlay, ExtTreeMap.getElem?_empty]
  exact .none

/-! ### Answers -/

omit [Std.Refl S] in
theorem real_eq (h : OverlayAlike S o o') :
    ∃ txLocations, o'.real = relocated o.real txLocations := by
  obtain ⟨journal, txLocations, -, rfl⟩ := h
  exact ⟨txLocations, rfl⟩

omit [Std.Refl S] in
theorem keys_eq (h : OverlayAlike S o o') :
    o.journal.toList.map Prod.fst = o'.journal.toList.map Prod.fst := by
  obtain ⟨journal, txLocations, hJournal, rfl⟩ := h
  exact keys_toList_eq hJournal

omit [Std.Refl S] in
/-- A domain has an entry in both journals or in neither. -/
theorem entry_cases (h : OverlayAlike S o o') (d : Bytes) :
    (o.journal[d]? = none ∧ o'.journal[d]? = none) ∨
      ∃ e e', o.journal[d]? = some e ∧ o'.journal[d]? = some e' ∧ EntryAlike S e e' := by
  obtain ⟨journal, txLocations, hJournal, rfl⟩ := h
  have hEntry := hJournal d
  dsimp only
  generalize o.journal[d]? = e at hEntry ⊢
  generalize journal[d]? = e' at hEntry ⊢
  cases hEntry with
  | none => exact .inl ⟨rfl, rfl⟩
  | some hAlike => exact .inr ⟨_, _, rfl, rfl, hAlike⟩

theorem getDomain (h : OverlayAlike S o o') (d : Bytes) :
    Option.Rel (TxAlike S) (o.getDomain E d) (o'.getDomain E d) := by
  obtain ⟨txLocations, hReal⟩ := h.real_eq
  unfold IndexOverlay.getDomain
  obtain ⟨hGet, hGet'⟩ | ⟨e, e', hGet, hGet', tx, txIndex, hTx, -, rfl⟩ := h.entry_cases d
  · rw [hGet, hGet', hReal]
    exact rel_txAlike_refl (o.real.getDomain E d)
  · rw [hGet, hGet']
    exact hTx

omit [Std.Refl S] in
theorem getOwner_eq (h : OverlayAlike S o o') (d : Bytes) :
    o'.getOwner E d = o.getOwner E d := by
  obtain ⟨txLocations, hReal⟩ := h.real_eq
  unfold IndexOverlay.getOwner
  obtain ⟨hGet, hGet'⟩ | ⟨e, e', hGet, hGet', tx, txIndex, -, -, rfl⟩ := h.entry_cases d
  · rw [hGet, hGet', hReal]
    rfl
  · rw [hGet, hGet', hReal]
    rfl

omit [Std.Refl S] in
theorem getListPrice_eq (h : OverlayAlike S o o') (d : Bytes) :
    o'.getListPrice E d = o.getListPrice E d := by
  obtain ⟨txLocations, hReal⟩ := h.real_eq
  unfold IndexOverlay.getListPrice
  obtain ⟨hGet, hGet'⟩ | ⟨e, e', hGet, hGet', tx, txIndex, -, -, rfl⟩ := h.entry_cases d
  · rw [hGet, hGet', hReal]
    rfl
  · rw [hGet, hGet', hReal]
    rfl

omit [Std.Refl S] in
theorem isForSale_eq (h : OverlayAlike S o o') (d : Bytes) :
    o'.isForSale E d = o.isForSale E d := by
  rw [o'.isForSale_eq, o.isForSale_eq, h.getListPrice_eq]

/-- The journals are searched in the same order of domains. -/
theorem getTxByID (h : OverlayAlike S o o')
    {range range' : List (Bytes × OverlayEntry) → List (Bytes × OverlayEntry)}
    (hPerm : (range o.journal.toList).Perm o.journal.toList)
    (hPerm' : (range' o'.journal.toList).Perm o'.journal.toList)
    (hWalk : (range o.journal.toList).map Prod.fst = (range' o'.journal.toList).map Prod.fst)
    (txID : Int64) :
    Option.Rel (TxAlike S) (o.getTxByID range txID) (o'.getTxByID range' txID) := by
  obtain ⟨journal, txLocations, hJournal, rfl⟩ := h
  have hEntries := forall₂_of_keys hWalk fun d e e' he he' =>
    rel_of_mem_toList hJournal (hPerm.mem_iff.mp he) (hPerm'.mem_iff.mp he')
  have hFound : Option.Rel (TxAlike S)
      ((range o.journal.toList).findSome? fun e => e.2.tx.filter fun tx => tx.tid = txID)
      ((range' journal.toList).findSome? fun e => e.2.tx.filter fun tx => tx.tid = txID) :=
    findSome?_rel (fun e e' he => he.2.filter_tid txID) hEntries
  unfold IndexOverlay.getTxByID
  dsimp only
  generalize (range o.journal.toList).findSome? _ = found at hFound ⊢
  generalize (range' journal.toList).findSome? _ = found' at hFound ⊢
  cases hFound with
  | none => exact rel_txAlike_refl (o.real.getTxByID txID)
  | some hAlike => exact .some hAlike

/-! ### Writes -/

omit [Std.Refl S] in
theorem insert (h : OverlayAlike S o o') (d : Bytes) {e e' : OverlayEntry}
    (hEntry : EntryAlike S e e') :
    OverlayAlike S { o with journal := o.journal.insert d e }
      { o' with journal := o'.journal.insert d e' } := by
  obtain ⟨journal, txLocations, hJournal, rfl⟩ := h
  refine ⟨journal.insert d e', txLocations, fun d' => ?_, rfl⟩
  dsimp only
  rw [getElem?_insert_eq_ite, getElem?_insert_eq_ite]
  split
  · exact .some hEntry
  · exact hJournal d'

omit [Std.Refl S] in
theorem add (h : OverlayAlike S o o') (d : Bytes) {tx tx' : Transaction} (hTx : TxAlike S tx tx')
    (blockIndex : Int64) (txIndex txIndex' : Nat) (slotsPerDay : Int64) :
    OverlayAlike S (o.add d tx blockIndex txIndex slotsPerDay)
      (o'.add d tx' blockIndex txIndex' slotsPerDay) := by
  have hEntry : EntryAlike S
      { (o.journal[d]?).getD {} with tx := some tx, added := true, blockIndex, txIndex }
      { (o'.journal[d]?).getD {} with
        tx := some tx', added := true, blockIndex, txIndex := txIndex' } := by
    refine ⟨some tx', txIndex', .some hTx, fun h => by simp at h, ?_⟩
    obtain ⟨hGet, hGet'⟩ | ⟨e, e', hGet, hGet', old, oldIndex, -, -, rfl⟩ := h.entry_cases d
    · rw [hGet, hGet']
    · rw [hGet, hGet']
      rfl
  obtain ⟨journal, txLocations, hJournal, hEq⟩ := h.insert d hEntry
  refine ⟨journal, txLocations, hJournal, ?_⟩
  unfold IndexOverlay.add
  dsimp only at hEq ⊢
  rw [IndexOverlay.mk.injEq] at hEq ⊢
  exact ⟨hEq.1, hEq.2.1, hEq.2.2.1, rfl⟩

theorem entryFor (h : OverlayAlike S o o') (d : Bytes) :
    EntryAlike S (o.entryFor E d) (o'.entryFor E d) := by
  obtain ⟨txLocations, hReal⟩ := h.real_eq
  unfold IndexOverlay.entryFor
  obtain ⟨hGet, hGet'⟩ | ⟨e, e', hGet, hGet', hAlike⟩ := h.entry_cases d
  · rw [hGet, hGet', hReal]
    exact .refl _
  · rw [hGet, hGet']
    exact hAlike

theorem setOwner (h : OverlayAlike S o o') (d : Bytes) (ownerKey : Option Bytes) :
    OverlayAlike S (o.setOwner E d ownerKey) (o'.setOwner E d ownerKey) := by
  obtain ⟨tx, txIndex, hTx, hReal, hEq⟩ := @entryFor S _ E o o' h d
  refine h.insert d ⟨tx, txIndex, hTx, hReal, ?_⟩
  rw [hEq]

theorem setListPrice (h : OverlayAlike S o o') (d : Bytes) (price : UInt64) :
    OverlayAlike S (o.setListPrice E d price) (o'.setListPrice E d price) := by
  obtain ⟨tx, txIndex, hTx, hReal, hEq⟩ := @entryFor S _ E o o' h d
  refine h.insert d ⟨tx, txIndex, hTx, hReal, ?_⟩
  rw [hEq]

omit [Std.Refl S] in
theorem ite {p : Prop} [Decidable p] {a a' b b' : IndexOverlay} (hThen : OverlayAlike S a a')
    (hElse : OverlayAlike S b b') :
    OverlayAlike S (if p then a else b) (if p then a' else b') := by
  split
  · exact hThen
  · exact hElse

omit [Std.Refl S] in
theorem markAsSpent (h : OverlayAlike S o o') (txID : Int64) :
    OverlayAlike S (o.markAsSpent txID) (o'.markAsSpent txID) := by
  obtain ⟨journal, txLocations, hJournal, rfl⟩ := h
  exact ⟨journal, txLocations, hJournal, rfl⟩

end OverlayAlike

end Overlay

/-! ## One transaction in the two runs -/

section Step

variable {S : List Record → List Record → Prop} {L : BalanceLedger → BalanceLedger → Prop}
  {C : CommitOverlay → CommitOverlay → Prop} {E : External} {pos pos' : Position}
  {tx tx' : Transaction} {st st' : DomainState}

theorem StateAlike.withIm (h : StateAlike S L C st st') {im im' : IndexOverlay}
    (hIm : OverlayAlike S im im') : StateAlike S L C { st with im } { st' with im := im' } :=
  ⟨hIm, h.ledger, h.cs⟩

/-- What the two runs have in common before a transaction: the transaction, the state and the
position, as far as they matter, the answer about the redeemed transaction, and what a COMMIT, a
REVEAL or a BUY finds and leaves. -/
structure SideBySide (S : List Record → List Record → Prop)
    (L : BalanceLedger → BalanceLedger → Prop) (C : CommitOverlay → CommitOverlay → Prop)
    (E : External) (pos pos' : Position) (tx tx' : Transaction) (st st' : DomainState) : Prop where
  transaction : TxAlike S tx tx'
  state : StateAlike S L C st st'
  position : ∃ txIndex range, pos' = { pos with txIndex, range }
  redeems : redeemsOwnDomain pos' tx' st' = redeemsOwnDomain pos tx st
  lengths : ∀ records records', S records records' → records.length = records'.length
  commits : tx.type = .commit → ∀ record : CommitRecord, record.commitHash = tx.commitHash →
    C (st.cs.addCommit record) (st'.cs.addCommit record)
  reveals : tx.type = .reveal →
    (st.cs.getCommit (Validation.revealKey E tx)).isSome =
        (st'.cs.getCommit (Validation.revealKey E tx)).isSome ∧
      C (st.cs.consumeCommit (Validation.revealKey E tx))
        (st'.cs.consumeCommit (Validation.revealKey E tx))
  pays : tx.type = .buy → ∀ price, price = st.im.getListPrice E tx.domainName →
    Lockstep (Lockstep fun paid paid' => ∀ seller, L (paid.credit seller price)
        (paid'.credit seller price))
      (st.ledger.debit (hexEncode tx.ownerKey) price)
      (st'.ledger.debit (hexEncode tx.ownerKey) price)

/-- The two results: both panic, or both return states that are alike. -/
abbrev SameResult (S : List Record → List Record → Prop)
    (L : BalanceLedger → BalanceLedger → Prop) (C : CommitOverlay → CommitOverlay → Prop) :
    DomainResult → DomainResult → Prop :=
  Lockstep fun result result' => StateAlike S L C result.1 result'.1

namespace SideBySide

variable [Std.Refl S] (h : SideBySide S L C E pos pos' tx tx' st st')

include h

theorem phaseOutside_eq (acceptable : Phase → Bool) :
    phaseOutside E pos' tx' st' acceptable = phaseOutside E pos tx st acceptable := by
  have hIm := h.state.im
  obtain ⟨records, -, rfl⟩ := h.transaction
  obtain ⟨txIndex, range, rfl⟩ := h.position
  have hDomain := @OverlayAlike.getDomain _ _ E _ _ hIm tx.domainName
  unfold phaseOutside
  dsimp only
  generalize st.im.getDomain E tx.domainName = old at hDomain ⊢
  generalize st'.im.getDomain E tx.domainName = old' at hDomain ⊢
  cases hDomain with
  | none => rfl
  | some hAlike =>
    obtain ⟨records', -, rfl⟩ := hAlike
    rfl

theorem inActivePhase_eq : inActivePhase E pos' tx' st' = inActivePhase E pos tx st := by
  have hIm := h.state.im
  obtain ⟨records, -, rfl⟩ := h.transaction
  obtain ⟨txIndex, range, rfl⟩ := h.position
  have hDomain := @OverlayAlike.getDomain _ _ E _ _ hIm tx.domainName
  unfold inActivePhase
  dsimp only
  generalize st.im.getDomain E tx.domainName = old at hDomain ⊢
  generalize st'.im.getDomain E tx.domainName = old' at hDomain ⊢
  cases hDomain with
  | none => rfl
  | some hAlike =>
    obtain ⟨records', -, rfl⟩ := hAlike
    rfl

omit [Std.Refl S] in
theorem ownedBySigner_eq : ownedBySigner E tx' st' = ownedBySigner E tx st := by
  obtain ⟨records, -, rfl⟩ := h.transaction
  unfold ownedBySigner
  dsimp only
  rw [h.state.im.getOwner_eq]

theorem applyRegister :
    SameResult S L C (applyRegister E pos tx st) (applyRegister E pos' tx' st') := by
  have hPhase := h.phaseOutside_eq
  have hStay := h.state
  obtain ⟨records, hRecords, rfl⟩ := h.transaction
  obtain ⟨txIndex, range, rfl⟩ := h.position
  unfold Blockchain.applyRegister
  rw [hPhase]
  cases phaseOutside E pos tx st (· == .purged) with
  | some phase => exact hStay
  | none =>
    dsimp only
    split
    · exact hStay
    · exact hStay.withIm ((hStay.im.add _ ⟨records, hRecords, rfl⟩ _ _ _ _).setOwner _ _)

omit [Std.Refl S] in
theorem applyCommit (hType : tx.type = .commit) :
    SameResult S L C (applyCommit pos tx st) (applyCommit pos' tx' st') := by
  have hStay := h.state
  have hCommits := h.commits hType
  obtain ⟨records, -, rfl⟩ := h.transaction
  obtain ⟨txIndex, range, rfl⟩ := h.position
  unfold Blockchain.applyCommit
  dsimp only
  split
  · trivial
  · exact ⟨hStay.im, hStay.ledger, hCommits _ rfl⟩

theorem applyReveal (hType : tx.type = .reveal) :
    SameResult S L C (applyReveal E pos tx st) (applyReveal E pos' tx' st') := by
  have hPhase := h.phaseOutside_eq
  have hStay := h.state
  obtain ⟨hFound, hConsumed⟩ := h.reveals hType
  obtain ⟨records, hRecords, rfl⟩ := h.transaction
  obtain ⟨txIndex, range, rfl⟩ := h.position
  have hKey : Validation.revealKey E { tx with records } = Validation.revealKey E tx := rfl
  unfold Blockchain.applyReveal
  dsimp only
  rw [hPhase, hKey]
  generalize st.cs.getCommit (Validation.revealKey E tx) = found at hFound ⊢
  generalize st'.cs.getCommit (Validation.revealKey E tx) = found' at hFound ⊢
  cases found with
  | none =>
    cases found' with
    | none => exact hStay
    | some rec => cases hFound
  | some rec =>
    cases found' with
    | none => cases hFound
    | some rec' =>
      cases phaseOutside E pos tx st (· == .purged) with
      | some phase => exact hStay
      | none =>
        have hAdded := hStay.im.add tx.domainName ⟨records, hRecords, rfl⟩ pos.currentSlot
          pos.txIndex txIndex pos.slotsPerDay
        exact ⟨(hAdded.setOwner _ _).markAsSpent _, hStay.ledger, hConsumed⟩

theorem revokeDomain :
    StateAlike S L C (revokeDomain E pos tx st) (revokeDomain E pos' tx' st') := by
  have hStay := h.state
  have hIm := h.state.im
  obtain ⟨records, hRecords, rfl⟩ := h.transaction
  obtain ⟨txIndex, range, rfl⟩ := h.position
  unfold Blockchain.revokeDomain addDomain
  dsimp only
  refine hStay.withIm ?_
  have hSpent := OverlayAlike.ite (p := tx.redeemsTxID ≠ 0) (hIm.markAsSpent tx.redeemsTxID) hIm
  have hAdded := hSpent.add tx.domainName ⟨records, hRecords, rfl⟩ pos.currentSlot pos.txIndex
    txIndex pos.slotsPerDay
  rw [hIm.getOwner_eq]
  cases st.im.getOwner E tx.domainName with
  | none => exact hAdded
  | some owner => exact hAdded.setOwner _ _

theorem applyRevoke :
    SameResult S L C (applyRevoke E pos tx st) (applyRevoke E pos' tx' st') := by
  have hOwned := h.ownedBySigner_eq
  have hRedeems := h.redeems
  have hStay := h.state
  have hRevoked := h.revokeDomain
  obtain ⟨records, -, rfl⟩ := h.transaction
  obtain ⟨txIndex, range, rfl⟩ := h.position
  have hDomain := @OverlayAlike.getDomain _ _ E _ _ hStay.im tx.domainName
  unfold Blockchain.applyRevoke
  dsimp only
  rw [hOwned, hRedeems]
  split
  · exact .bind_same fun short _ => hStay
  split
  · exact hStay
  split
  · generalize st.im.getDomain E tx.domainName = old at hDomain ⊢
    generalize st'.im.getDomain E tx.domainName = old' at hDomain ⊢
    cases hDomain with
    | none => exact hStay
    | some hAlike =>
      obtain ⟨records', -, rfl⟩ := hAlike
      dsimp only
      split
      · exact hStay
      · exact hRevoked
  · exact hRevoked

/-- A RENEW keeps the records that each run has stored. -/
theorem storeTx (isRenew : Bool) :
    TxAlike S (storeTx E tx st isRenew) (storeTx E tx' st' isRenew) := by
  have hLengths := h.lengths
  have hIm := h.state.im
  obtain ⟨records, hRecords, rfl⟩ := h.transaction
  have hDomain := @OverlayAlike.getDomain _ _ E _ _ hIm tx.domainName
  unfold Blockchain.storeTx
  dsimp only
  generalize st.im.getDomain E tx.domainName = old at hDomain ⊢
  generalize st'.im.getDomain E tx.domainName = old' at hDomain ⊢
  cases isRenew with
  | false => exact ⟨records, hRecords, rfl⟩
  | true =>
    cases hDomain with
    | none => exact ⟨records, hRecords, rfl⟩
    | some hAlike =>
      obtain ⟨records', hRecords', rfl⟩ := hAlike
      dsimp only
      rw [hLengths _ _ hRecords']
      split
      · exact ⟨records', hRecords', rfl⟩
      · exact ⟨records, hRecords, rfl⟩

theorem replaceDomain (isRenew : Bool) : StateAlike S L C (replaceDomain E pos tx st isRenew)
    (replaceDomain E pos' tx' st' isRenew) := by
  have hStored := h.storeTx isRenew
  have hStay := h.state
  have hIm := h.state.im
  obtain ⟨records, -, rfl⟩ := h.transaction
  obtain ⟨txIndex, range, rfl⟩ := h.position
  have hAdded := (hIm.markAsSpent tx.redeemsTxID).add tx.domainName hStored pos.currentSlot
    pos.txIndex txIndex pos.slotsPerDay
  unfold Blockchain.replaceDomain addDomain
  dsimp only
  refine hStay.withIm ?_
  rw [hIm.getOwner_eq, hIm.getListPrice_eq]
  have hPriced := OverlayAlike.ite (p := 0 < st.im.getListPrice E tx.domainName)
    (@OverlayAlike.setListPrice _ _ E _ _ hAdded tx.domainName
      (st.im.getListPrice E tx.domainName)) hAdded
  cases st.im.getOwner E tx.domainName with
  | none => exact hPriced
  | some owner => exact hPriced.setOwner _ _

theorem applyUpdateOrRenew (isRenew : Bool) :
    SameResult S L C (applyUpdateOrRenew E pos tx st isRenew)
      (applyUpdateOrRenew E pos' tx' st' isRenew) := by
  have hRedeems := h.redeems
  have hStay := h.state
  have hReplaced := h.replaceDomain isRenew
  obtain ⟨records, -, rfl⟩ := h.transaction
  unfold Blockchain.applyUpdateOrRenew
  dsimp only
  rw [hRedeems]
  split
  · exact hStay
  split
  · exact hStay
  · exact hReplaced

theorem applyUpdate :
    SameResult S L C (applyUpdate E pos tx st) (applyUpdate E pos' tx' st') := by
  have hOwned := h.ownedBySigner_eq
  have hPhase := h.phaseOutside_eq
  have hStay := h.state
  have hRest := h.applyUpdateOrRenew false
  obtain ⟨records, -, rfl⟩ := h.transaction
  unfold Blockchain.applyUpdate
  rw [hOwned, hPhase]
  split
  · exact .bind_same fun short _ => hStay
  · cases phaseOutside E pos tx st (· == .active) with
    | some phase => exact hStay
    | none => exact hRest

theorem applyRenew : SameResult S L C (applyRenew E pos tx st) (applyRenew E pos' tx' st') := by
  have hRest := h.applyUpdateOrRenew true
  unfold Blockchain.applyRenew
  rw [h.phaseOutside_eq]
  cases phaseOutside E pos tx st (· != .purged) with
  | some phase => exact h.state
  | none => exact hRest

theorem applyList : SameResult S L C (applyList E pos tx st) (applyList E pos' tx' st') := by
  have hActive := h.inActivePhase_eq
  have hStay := h.state
  obtain ⟨records, -, rfl⟩ := h.transaction
  unfold Blockchain.applyList
  dsimp only
  rw [hActive, hStay.im.getOwner_eq]
  refine .bind_same fun active _ => ?_
  split
  · exact hStay
  cases st.im.getOwner E tx.domainName with
  | none => exact hStay
  | some owner =>
    dsimp only
    split
    · exact .bind_same fun short _ => hStay
    · exact hStay.withIm (hStay.im.setListPrice _ _)

theorem applyDelist :
    SameResult S L C (applyDelist E pos tx st) (applyDelist E pos' tx' st') := by
  have hActive := h.inActivePhase_eq
  have hStay := h.state
  obtain ⟨records, -, rfl⟩ := h.transaction
  unfold Blockchain.applyDelist
  dsimp only
  rw [hActive, hStay.im.getOwner_eq, hStay.im.isForSale_eq]
  refine .bind_same fun active _ => ?_
  split
  · exact hStay
  cases st.im.getOwner E tx.domainName with
  | none => exact hStay
  | some owner =>
    dsimp only
    split
    · exact hStay
    split
    · exact .bind_same fun short _ => hStay
    · exact hStay.withIm (hStay.im.setListPrice _ _)

theorem applyBuyDomain (hType : tx.type = .buy) :
    SameResult S L C (applyBuyDomain E pos tx st) (applyBuyDomain E pos' tx' st') := by
  have hActive := h.inActivePhase_eq
  have hStay := h.state
  have hPays := h.pays hType
  obtain ⟨records, -, rfl⟩ := h.transaction
  unfold Blockchain.applyBuyDomain
  dsimp only
  rw [hActive, hStay.im.getOwner_eq, hStay.im.isForSale_eq, hStay.im.getListPrice_eq]
  refine .bind_same fun active _ => ?_
  split
  · exact hStay
  split
  · exact hStay
  split
  · exact .bind_same fun short _ => hStay
  split
  · exact hStay
  refine .bind (hPays _ rfl) fun paid paid' hPaid => ?_
  cases paid with
  | error err =>
    cases paid' with
    | error err' => exact .bind_same fun short _ => hStay
    | ok paid' => exact hPaid.elim
  | ok paid =>
    cases paid' with
    | error err' => exact hPaid.elim
    | ok paid' => exact ⟨(hStay.im.setOwner _ _).setListPrice _ _, hPaid _, hStay.cs⟩

theorem applyTransferDomain :
    SameResult S L C (applyTransferDomain E pos tx st) (applyTransferDomain E pos' tx' st') := by
  have hActive := h.inActivePhase_eq
  have hStay := h.state
  obtain ⟨records, -, rfl⟩ := h.transaction
  unfold Blockchain.applyTransferDomain
  dsimp only
  rw [hActive, hStay.im.getOwner_eq]
  refine .bind_same fun active _ => ?_
  split
  · exact hStay
  cases st.im.getOwner E tx.domainName with
  | none => exact hStay
  | some owner =>
    dsimp only
    split
    · exact .bind_same fun short _ => hStay
    · exact hStay.withIm ((hStay.im.setOwner _ _).setListPrice _ _)

theorem applyDomainMutations :
    SameResult S L C (applyDomainMutations E pos tx st)
      (applyDomainMutations E pos' tx' st') := by
  have hSame : tx'.type = tx.type := by
    obtain ⟨records, -, rfl⟩ := h.transaction
    rfl
  unfold Blockchain.applyDomainMutations
  rw [hSame]
  cases hType : tx.type with
  | register => exact h.applyRegister
  | commit => exact h.applyCommit hType
  | reveal => exact h.applyReveal hType
  | revoke => exact h.applyRevoke
  | update => exact h.applyUpdate
  | renew => exact h.applyRenew
  | list => exact h.applyList
  | buy => exact h.applyBuyDomain hType
  | transfer => exact h.applyTransferDomain
  | delist => exact h.applyDelist
  | fund | stake | unstake | equivocationProof | other => exact h.state

end SideBySide

/-- Two loops visit journals with the same domains in the same order. -/
def WalkAlike (range range' : List (Bytes × OverlayEntry) → List (Bytes × OverlayEntry)) : Prop :=
  ∀ xs ys, xs.map Prod.fst = ys.map Prod.fst →
    (range xs).map Prod.fst = (range' ys).map Prod.fst

theorem redeemsOwnDomain_alike [Std.Refl S] {env : Env} {order order' : JournalOrder}
    {slot blockIndex : Int64} {i i' : Nat} (hWalk : WalkAlike (order.run i) (order'.run i'))
    (hTx : TxAlike S tx tx') (hIm : OverlayAlike S st.im st'.im) :
    redeemsOwnDomain (env.position order' slot blockIndex i') tx' st' =
      redeemsOwnDomain (env.position order slot blockIndex i) tx st := by
  obtain ⟨records, -, rfl⟩ := hTx
  have hFound := hIm.getTxByID (order.perm i _) (order'.perm i' _) (hWalk _ _ hIm.keys_eq)
    tx.redeemsTxID
  unfold redeemsOwnDomain Env.position
  dsimp only
  generalize st.im.getTxByID (order.run i) tx.redeemsTxID = found at hFound ⊢
  generalize st'.im.getTxByID (order'.run i') tx.redeemsTxID = found' at hFound ⊢
  cases hFound with
  | none => rfl
  | some hAlike =>
    obtain ⟨records', -, rfl⟩ := hAlike
    rfl

end Step

end Bdns.Safety
