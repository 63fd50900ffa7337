import Bdns.Blockchain.Constructors
import Bdns.Safety.Presence

/-!
# What a domain operation changes

An operation that fails changes nothing. UPDATE and RENEW replace the transaction of a domain as a
whole and keep its owner and its price; the expiry slot comes from the new transaction, also where
it should be kept (UPDATE, which is built without one) or grow (RENEW, which nothing checks). A
REVOKE by the slot leader asks only that the domain is not active.
-/

namespace Bdns.Safety

open Lib Blockchain Network Index Validation

namespace StandIn

open Network.StandIn

/-- The domain, registered until slot 1000 with the given records. -/
def registeredLog (records : List Record) : List (Int64 × List Transaction) :=
  [(1, [commitTx 1 0 [1]]),
    (4, [registryTx { revealTx 2 1 1 [1] 1000 with records }])]

/-- The state before the transactions of a block that follows. -/
def startAfter (log : List (Int64 × List Transaction)) : DomainState :=
  ⟨(afterLog log).1.ledger, .newIndexOverlay (afterLog log).1.index,
    openCommits (afterLog log).1.commitStore ((afterLog log).2.index + 1)⟩

/-- The validation of such a block, at a slot. -/
def validationAfter (log : List (Int64 × List Transaction)) (slot : Int64) : Validation :=
  blockValidation registryEnv (afterLog log).1
    { index := (afterLog log).2.index + 1, slotNumber := slot, slotLeader := utf8 "registry"
      transactions := [], prevHash := (afterLog log).2.hash }

/-- The first position in such a block. -/
def firstPosition (slot : Int64) : Position :=
  registryEnv.position (.ascending _ _) slot 3 0

def aRecord : Record := ⟨utf8 "A", utf8 "10.0.0.1", 0⟩

def registryDraw (tid : Int64) : Draw := ⟨tid, 5, Blockchain.StandIn.sign (utf8 "registry")⟩

/-- An evaluated application that returned no error, with what was seen of the state after it. -/
theorem exists_applied {result : DomainResult} {p : DomainState × Option Bytes → Bool}
    (h : result.toOption.any (fun r => r.2.isNone && p r) = true) :
    ∃ st', result = .ok (st', none) ∧ p (st', none) = true := by
  obtain ⟨⟨st', err⟩, hApply, hBoth⟩ := exists_of_any h
  obtain ⟨hNone, hSeen⟩ := Bool.and_eq_true_iff.mp hBoth
  obtain rfl : err = none := Option.isNone_iff_eq_none.mp hNone
  exact ⟨st', hApply, hSeen⟩

end StandIn

section Frames

variable {E : External} {pos : Position} {tx : Transaction} {st st' : DomainState}

/-! ## Failure -/

/-- After an error ledger, commits and all answers of the index are what they were. -/
theorem failed_leaves_no_trace {text : Bytes}
    (h : applyDomainMutations E pos tx st = .ok (st', some text)) :
    st'.ledger = st.ledger ∧ st'.cs = st.cs ∧
      (∀ range, st'.im.indexer E range = st.im.indexer E range) ∧
      st'.im.getIndexHash E = st.im.getIndexHash E := by
  obtain rfl := (applyDomainMutations_eq_ok h).eq_of_some
  exact ⟨rfl, rfl, fun _ => rfl, rfl⟩

open Network.StandIn StandIn in
/-- An UPDATE of the domain by a stranger. -/
theorem failed_leaves_no_trace_stranger :
    ∃ st' text, applyDomainMutations registryEnv.E (firstPosition 5)
        (newTransaction registryEnv.E (registryDraw 3) .update (utf8 "a.bdns") [aRecord] 300 5 1 2
          (utf8 "stranger") 1 0) (startAfter (registeredLog [])) = .ok (st', some text) ∧
      st'.ledger = (startAfter (registeredLog [])).ledger ∧
      st'.im.getIndexHash registryEnv.E =
        (startAfter (registeredLog [])).im.getIndexHash registryEnv.E := by
  have hFails : (applyDomainMutations registryEnv.E (firstPosition 5)
      (newTransaction registryEnv.E (registryDraw 3) .update (utf8 "a.bdns") [aRecord] 300 5 1 2
        (utf8 "stranger") 1 0) (startAfter (registeredLog []))).toOption.any
      (fun result => result.2.isSome) = true := by decide +kernel
  obtain ⟨⟨st', err⟩, hApply, hSome⟩ := exists_of_any hFails
  obtain ⟨text, rfl⟩ := Option.isSome_iff_exists.mp hSome
  obtain ⟨hLedger, -, -, hHash⟩ := failed_leaves_no_trace hApply
  exact ⟨st', text, hApply, hLedger, hHash⟩

/-! ## UPDATE and RENEW -/

/-- All owners and prices, and the transactions of all other domains. -/
structure KeepsRest (E : External) (d : Bytes) (st st' : DomainState) : Prop where
  owner : ∀ d', st'.im.getOwner E d' = st.im.getOwner E d'
  price : ∀ d', st'.im.getListPrice E d' = st.im.getListPrice E d'
  domain : ∀ d', d' ≠ d → st'.im.getDomain E d' = st.im.getDomain E d'
  ledger : st'.ledger = st.ledger
  commits : st'.cs = st.cs

theorem keepsRest_replaceDomain (isRenew : Bool) :
    KeepsRest E tx.domainName st (replaceDomain E pos tx st isRenew) where
  owner := getOwner_replaceDomain isRenew
  price := getListPrice_replaceDomain isRenew
  domain d' hd := by rw [getDomain_replaceDomain, if_neg (Ne.symm hd)]
  ledger := rfl
  commits := rfl

/-- An UPDATE that takes effect was in the active phase and is stored as it is. -/
theorem updated_of_effect (hType : tx.type = .update) (h : DomainEffect E pos tx st st' none) :
    st' = replaceDomain E pos tx st false ∧ phaseOutside E pos tx st (· == .active) = none := by
  cases h with
  | updated _ _ hActive => exact ⟨rfl, hActive⟩
  | skipped hSkipped => rw [hType] at hSkipped; simp at hSkipped
  | registered hOther | committed hOther | revealed hOther | revoked hOther | renewed hOther
  | listed hOther | delisted hOther | bought hOther | transferred hOther =>
    rw [hType] at hOther
    cases hOther

theorem renewed_of_effect (hType : tx.type = .renew) (h : DomainEffect E pos tx st st' none) :
    st' = replaceDomain E pos tx st true := by
  cases h with
  | renewed => rfl
  | skipped hSkipped => rw [hType] at hSkipped; simp at hSkipped
  | registered hOther | committed hOther | revealed hOther | revoked hOther | updated hOther
  | listed hOther | delisted hOther | bought hOther | transferred hOther =>
    rw [hType] at hOther
    cases hOther

/-- An UPDATE keeps all but the transaction of its domain, and the expiry slot and the active phase
exactly where its own expiry slot is that of the domain. -/
theorem expiry_of_update (hType : tx.type = .update)
    (hApply : applyDomainMutations E pos tx st = .ok (st', none)) :
    KeepsRest E tx.domainName st st' ∧
      ((∃ t', st'.im.getDomain E tx.domainName = some t' ∧
          (st.im.getDomain E tx.domainName).map Transaction.expirySlot = some t'.expirySlot ∧
          getDomainPhase pos.currentSlot t'.expirySlot pos.slotsPerDay = .active) ↔
        ∃ t, st.im.getDomain E tx.domainName = some t ∧ t.expirySlot = tx.expirySlot) := by
  obtain ⟨rfl, hActive⟩ := updated_of_effect hType (applyDomainMutations_eq_ok hApply)
  refine ⟨keepsRest_replaceDomain false, ?_⟩
  rw [getDomain_replaceDomain, if_pos rfl]
  constructor
  · rintro ⟨t', hStored, hSame, -⟩
    obtain ⟨t, hBefore, hExpiry⟩ := Option.map_eq_some_iff.mp hSame
    obtain rfl : tx = t' := Option.some.inj hStored
    exact ⟨t, hBefore, hExpiry⟩
  · rintro ⟨t, hBefore, hExpiry⟩
    refine ⟨tx, rfl, ?_, ?_⟩
    · rw [hBefore, Option.map_some, hExpiry]
    · rw [← hExpiry]
      exact phase_of_phaseOutside hActive _ hBefore

/-- An UPDATE is built without an expiry slot: it keeps the slot of the domain, and with it the
active phase, only where the slot was 0 before. -/
theorem update_keeps_expiry_iff {draw : Draw} {domainName ownerKey : Bytes}
    {records : List Record} {cacheTTL currentSlot slotsPerDay redeemsTxID : Int64}
    {fee nonce : UInt64}
    (hApply : applyDomainMutations E pos (newTransaction E draw .update domainName records cacheTTL
      currentSlot slotsPerDay redeemsTxID ownerKey fee nonce) st = .ok (st', none)) :
    KeepsRest E domainName st st' ∧
      ((∃ t', st'.im.getDomain E domainName = some t' ∧
          (st.im.getDomain E domainName).map Transaction.expirySlot = some t'.expirySlot ∧
          getDomainPhase pos.currentSlot t'.expirySlot pos.slotsPerDay = .active) ↔
        ∃ t, st.im.getDomain E domainName = some t ∧ t.expirySlot = 0) :=
  expiry_of_update rfl hApply

namespace StandIn

open Network.StandIn

/-- An UPDATE of the records by the owner. -/
def updateTx : Transaction :=
  newTransaction registryEnv.E (registryDraw 3) .update (utf8 "a.bdns") [aRecord] 300 5 1 2
    (utf8 "registry") 1 2

/-- The domain before the UPDATE, the verdict on it, and the domain after it. -/
theorem updateTx_registered :
    (startAfter (registeredLog [])).im.getDomain registryEnv.E (utf8 "a.bdns") =
        some (registryTx { revealTx 2 1 1 [1] 1000 with records := [] }) ∧
      (validationAfter (registeredLog []) 5).validateTransactions [updateTx] = .ok true ∧
      (applyDomainMutations registryEnv.E (firstPosition 5) updateTx
        (startAfter (registeredLog []))).toOption.any (fun result => result.2.isNone &&
          decide (result.1.im.getDomain registryEnv.E (utf8 "a.bdns") = some updateTx)) = true := by
  decide +kernel

end StandIn

open Network.StandIn StandIn in
theorem update_keeps_expiry_iff_registry :
    ∃ st', applyDomainMutations registryEnv.E (firstPosition 5) updateTx
        (startAfter (registeredLog [])) = .ok (st', none) ∧
      KeepsRest registryEnv.E (utf8 "a.bdns") (startAfter (registeredLog [])) st' := by
  obtain ⟨st', hApply, -⟩ := exists_applied updateTx_registered.2.2
  exact ⟨st', hApply, (update_keeps_expiry_iff hApply).1⟩

open Network.StandIn StandIn in
/-- The UPDATE passes validation and takes effect at slot 5, and the domain that was registered
until slot 1000 is out of its active phase. -/
theorem update_drops_expiry :
    (validationAfter (registeredLog []) 5).validateTransactions [updateTx] = .ok true ∧
      ∃ st' t t', applyDomainMutations registryEnv.E (firstPosition 5) updateTx
          (startAfter (registeredLog [])) = .ok (st', none) ∧
        (startAfter (registeredLog [])).im.getDomain registryEnv.E (utf8 "a.bdns") = some t ∧
        t.expirySlot = 1000 ∧ getDomainPhase 5 t.expirySlot 1 = .active ∧
        st'.im.getDomain registryEnv.E (utf8 "a.bdns") = some t' ∧
        t'.expirySlot = 0 ∧ getDomainPhase 5 t'.expirySlot 1 = .grace := by
  obtain ⟨hBefore, hAccepted, hEffect⟩ := updateTx_registered
  obtain ⟨st', hApply, hStored⟩ := exists_applied hEffect
  exact ⟨hAccepted, st', registryTx { revealTx 2 1 1 [1] 1000 with records := [] },
    updateTx, hApply, hBefore, by decide +kernel, by decide +kernel,
    of_decide_eq_true hStored, by decide +kernel, by decide +kernel⟩

/-- An accepted RENEW brings records. -/
theorem records_of_validateTx {V : Validation} {sh sh' : Shadow} (hType : tx.type = .renew)
    (h : V.validateTx sh tx = .ok sh') : tx.records ≠ [] := by
  obtain ⟨domains, hForm, -⟩ := validateTx_eq_ok h
  obtain ⟨redeemed, hFormed⟩ := formed_of_checkForm hForm
  have hShape := hFormed.shape
  simp only [checkShape, bind_eq_ok, require_eq_ok, exists_const] at hShape
  exact hShape.2.1 (.inr (.inr hType))

/-- What a RENEW stores for a domain with records, and for one without. -/
theorem records_storeTx {t : Transaction} (hBefore : st.im.getDomain E tx.domainName = some t) :
    (storeTx E tx st true).records = if t.records = [] then tx.records else t.records := by
  unfold storeTx
  rw [hBefore]
  cases hRecords : t.records with
  | nil => simp [hRecords]
  | cons r rs => simp [hRecords]

/-- An accepted RENEW that takes effect keeps the records and moves the expiry slot on exactly
where the domain has records and the slot of the RENEW is later. -/
theorem renew_extends_iff {V : Validation} {txs : List Transaction}
    (hAccepted : V.validateTransactions txs = .ok true) (hMem : tx ∈ txs)
    (hType : tx.type = .renew)
    (hApply : applyDomainMutations V.E pos tx st = .ok (st', none)) :
    KeepsRest V.E tx.domainName st st' ∧
      ((∃ t t', st.im.getDomain V.E tx.domainName = some t ∧
          st'.im.getDomain V.E tx.domainName = some t' ∧ t'.records = t.records ∧
          t.expirySlot < t'.expirySlot) ↔
        ∃ t, st.im.getDomain V.E tx.domainName = some t ∧ t.records ≠ [] ∧
          t.expirySlot < tx.expirySlot) := by
  obtain ⟨sh, hRun⟩ := validateTransactions_eq_true.mp hAccepted
  obtain ⟨before, after, hSplit⟩ := List.append_of_mem hMem
  obtain ⟨sh₁, sh₂, -, hTx⟩ := run_split hRun hSplit
  have hOwn : tx.records ≠ [] := records_of_validateTx hType hTx
  obtain rfl := renewed_of_effect hType (applyDomainMutations_eq_ok hApply)
  refine ⟨keepsRest_replaceDomain true, ?_⟩
  rw [getDomain_replaceDomain, if_pos rfl]
  have hExpiry := (storedAs_storeTx V.E tx st true).expirySlot
  constructor
  · rintro ⟨t, t', hBefore, hStored, hRecords, hLater⟩
    obtain rfl := Option.some.inj hStored
    rw [records_storeTx hBefore] at hRecords
    refine ⟨t, hBefore, fun hEmpty => ?_, hExpiry ▸ hLater⟩
    rw [if_pos hEmpty, hEmpty] at hRecords
    exact hOwn hRecords
  · rintro ⟨t, hBefore, hRecords, hLater⟩
    refine ⟨t, _, hBefore, rfl, ?_, hExpiry.symm ▸ hLater⟩
    rw [records_storeTx hBefore, if_neg hRecords]

namespace StandIn

open Network.StandIn

/-- The RENEW as the constructor builds it. -/
def renewTx : Transaction :=
  newRenewTransaction registryEnv.E (registryDraw 3) (utf8 "a.bdns") [aRecord] 300 1000 1 2
    (utf8 "registry") 1 2

/-- A RENEW with an earlier expiry slot than the domain has. -/
def shorteningTx : Transaction :=
  registryTx { renewTx with expirySlot := 10 }

end StandIn

open Network.StandIn StandIn in
theorem renew_extends_iff_registry :
    ∃ st' t t', applyDomainMutations registryEnv.E (firstPosition 5) renewTx
        (startAfter (registeredLog [aRecord])) = .ok (st', none) ∧
      (startAfter (registeredLog [aRecord])).im.getDomain registryEnv.E (utf8 "a.bdns") = some t ∧
      st'.im.getDomain registryEnv.E (utf8 "a.bdns") = some t' ∧ t'.records = t.records ∧
      t.expirySlot < t'.expirySlot := by
  obtain ⟨hBefore, hAccepted, hEffect⟩ :
      (startAfter (registeredLog [aRecord])).im.getDomain registryEnv.E (utf8 "a.bdns") =
          some (registryTx { revealTx 2 1 1 [1] 1000 with records := [aRecord] }) ∧
        (validationAfter (registeredLog [aRecord]) 5).validateTransactions [renewTx] = .ok true ∧
        (applyDomainMutations registryEnv.E (firstPosition 5) renewTx
          (startAfter (registeredLog [aRecord]))).toOption.any (fun result => result.2.isNone) =
            true := by
    decide +kernel
  obtain ⟨⟨st', err⟩, hApply, hNone⟩ := exists_of_any hEffect
  obtain rfl : err = none := Option.isNone_iff_eq_none.mp hNone
  obtain ⟨-, hExtends⟩ := renew_extends_iff hAccepted List.mem_cons_self rfl hApply
  obtain ⟨t, t', hResult⟩ := hExtends.mpr
    ⟨registryTx { revealTx 2 1 1 [1] 1000 with records := [aRecord] }, hBefore,
      by decide +kernel, by decide +kernel⟩
  exact ⟨st', t, t', hApply, hResult⟩

open Network.StandIn StandIn in
/-- A domain without records gets those of the RENEW, and its expiry slot goes from 1000 to 10. -/
theorem renew_shortens :
    (validationAfter (registeredLog []) 5).validateTransactions [shorteningTx] = .ok true ∧
      ∃ st' t t', applyDomainMutations registryEnv.E (firstPosition 5) shorteningTx
          (startAfter (registeredLog [])) = .ok (st', none) ∧
        (startAfter (registeredLog [])).im.getDomain registryEnv.E (utf8 "a.bdns") = some t ∧
        st'.im.getDomain registryEnv.E (utf8 "a.bdns") = some t' ∧
        t.records = [] ∧ t'.records = [aRecord] ∧ t.expirySlot = 1000 ∧ t'.expirySlot = 10 := by
  obtain ⟨hAccepted, hEffect⟩ :
      (validationAfter (registeredLog []) 5).validateTransactions [shorteningTx] = .ok true ∧
        (applyDomainMutations registryEnv.E (firstPosition 5) shorteningTx
          (startAfter (registeredLog []))).toOption.any (fun result => result.2.isNone &&
            decide (result.1.im.getDomain registryEnv.E (utf8 "a.bdns") = some shorteningTx)) =
              true := by
    decide +kernel
  obtain ⟨st', hApply, hStored⟩ := exists_applied hEffect
  exact ⟨hAccepted, st', registryTx { revealTx 2 1 1 [1] 1000 with records := [] },
    shorteningTx, hApply, updateTx_registered.1, of_decide_eq_true hStored, by decide +kernel,
    by decide +kernel, by decide +kernel, by decide +kernel⟩

/-! ## REVOKE by the slot leader -/

theorem keepsRest_revokeDomain : KeepsRest E tx.domainName st (revokeDomain E pos tx st) where
  owner := getOwner_revokeDomain
  price := getListPrice_revokeDomain
  domain d' hd := by rw [getDomain_revokeDomain, if_neg (Ne.symm hd)]
  ledger := rfl
  commits := rfl

theorem keepsRest_refl (E : External) (d : Bytes) (st : DomainState) : KeepsRest E d st st :=
  ⟨fun _ => rfl, fun _ => rfl, fun _ _ => rfl, rfl, rfl⟩

/-- An ownerless REVOKE takes effect exactly where it redeems a transaction of a domain that is
out of its active phase. -/
theorem applyRevoke_ownerless (hOwnerless : tx.ownerKey = []) (hRedeems : tx.redeemsTxID ≠ 0)
    {err : Option Bytes} (h : applyRevoke E pos tx st = .ok (st', err)) :
    (err = none ↔ redeemsOwnDomain pos tx st = true ∧ ∃ t,
      st.im.getDomain E tx.domainName = some t ∧
        getDomainPhase pos.currentSlot t.expirySlot pos.slotsPerDay ≠ .active) := by
  unfold applyRevoke at h
  rw [hOwnerless, if_neg (by simp)] at h
  by_cases hOwn : redeemsOwnDomain pos tx st = true
  · rw [if_neg (by simp [hOwn]), if_pos List.length_nil] at h
    cases hDomain : st.im.getDomain E tx.domainName with
    | none =>
      rw [hDomain] at h
      obtain ⟨-, rfl⟩ := Prod.mk.inj (pure_eq_ok.mp h)
      simp
    | some t =>
      rw [hDomain] at h
      dsimp only at h
      by_cases hActive : getDomainPhase pos.currentSlot t.expirySlot pos.slotsPerDay = .active
      · rw [if_pos hActive] at h
        obtain ⟨-, rfl⟩ := Prod.mk.inj (pure_eq_ok.mp h)
        simp [hActive]
      · rw [if_neg hActive] at h
        obtain ⟨-, rfl⟩ := Prod.mk.inj (pure_eq_ok.mp h)
        simp [hOwn, hActive]
  · rw [if_pos ⟨hRedeems, Bool.eq_false_iff.mpr hOwn⟩] at h
    obtain ⟨-, rfl⟩ := Prod.mk.inj (pure_eq_ok.mp h)
    simp [hOwn]

/-- In an accepted block, and from whatever state the transactions before it leave, a REVOKE by the
slot leader touches no domain but its own, nothing at all if it fails, and takes effect on purged
domains only, unless the domain is in its grace period and the REVOKE redeems one of its
transactions. -/
theorem autoRevoke_only_purged_iff {env : Env} {order : JournalOrder} {s : ChainState}
    {b latest : Block} {slotLeader : Bytes} {staged : Staged} {before after : List Transaction}
    {err : Option Bytes}
    (hAccepted : validateBlock env order s b latest slotLeader = .ok staged)
    (hSplit : b.transactions = before ++ tx :: after) (hType : tx.type = .revoke)
    (hOwnerless : tx.ownerKey = [])
    (hApply : applyDomainMutations env.E
      (env.position order b.slotNumber b.index before.length) tx st = .ok (st', err)) :
    KeepsRest env.E tx.domainName st st' ∧ (err ≠ none → st' = st) ∧
      ((err = none → ∃ t, st.im.getDomain env.E tx.domainName = some t ∧
          getDomainPhase b.slotNumber t.expirySlot env.slotsPerDay = .purged ∧
          computePurgeSlot t.expirySlot env.slotsPerDay ≤ b.slotNumber) ↔
        ¬ ∃ t, st.im.getDomain env.E tx.domainName = some t ∧
          getDomainPhase b.slotNumber t.expirySlot env.slotsPerDay = .grace ∧
          redeemsOwnDomain (env.position order b.slotNumber b.index before.length) tx st =
            true) := by
  obtain ⟨-, ⟨sh, hRun⟩, -⟩ := validateBlock_eq_ok hAccepted
  obtain ⟨sh₁, sh₂, -, hTx⟩ := run_split hRun hSplit
  have hRedeems : tx.redeemsTxID ≠ 0 := redeems_of_validateTx hTx (.inr (.inr hType))
  have hRevoke : applyRevoke env.E (env.position order b.slotNumber b.index before.length) tx st =
      .ok (st', err) := by
    unfold applyDomainMutations at hApply
    rwa [hType] at hApply
  have hEffective := applyRevoke_ownerless hOwnerless hRedeems hRevoke
  refine ⟨?_, fun hErr => ?_, ?_⟩
  · cases applyDomainMutations_eq_ok hApply with
    | failed => exact keepsRest_refl ..
    | revoked => exact keepsRest_revokeDomain
    | skipped hSkipped => rw [hType] at hSkipped; simp at hSkipped
    | registered hOther | committed hOther | revealed hOther | updated hOther | renewed hOther
    | listed hOther | delisted hOther | bought hOther | transferred hOther =>
      rw [hType] at hOther
      cases hOther
  · obtain ⟨text, rfl⟩ := Option.ne_none_iff_exists'.mp hErr
    exact (applyDomainMutations_eq_ok hApply).eq_of_some
  · rw [hEffective]
    constructor
    · rintro hPurged ⟨t, hDomain, hGrace, hOwn⟩
      obtain ⟨t', hDomain', hPhase, -⟩ := hPurged ⟨hOwn, t, hDomain, by
        change getDomainPhase b.slotNumber t.expirySlot env.slotsPerDay ≠ .active
        simp [hGrace]⟩
      obtain rfl := Option.some.inj (hDomain.symm.trans hDomain')
      exact absurd (hGrace.symm.trans hPhase) (by decide)
    · rintro hNot ⟨hOwn, t, hDomain, hInactive⟩
      change getDomainPhase b.slotNumber t.expirySlot env.slotsPerDay ≠ .active at hInactive
      have hPhase : getDomainPhase b.slotNumber t.expirySlot env.slotsPerDay = .purged := by
        cases hPhase : getDomainPhase b.slotNumber t.expirySlot env.slotsPerDay with
        | active => exact absurd hPhase hInactive
        | grace => exact absurd ⟨t, hDomain, hPhase, hOwn⟩ hNot
        | purged => rfl
      refine ⟨t, hDomain, hPhase, ?_⟩
      unfold getDomainPhase at hPhase
      split at hPhase
      · exact absurd hPhase (by decide)
      · split at hPhase
        · exact absurd hPhase (by decide)
        · rename_i hNotBefore
          exact Int64.not_lt.mp hNotBefore

namespace StandIn

open Network.StandIn

/-- A REVOKE by the slot leader, with no key. -/
def autoRevokeTx : Transaction :=
  Blockchain.StandIn.signAs (utf8 "registry")
    { tid := 3, type := .revoke, redeemsTxID := 2, domainName := utf8 "a.bdns" }

/-- The domain is registered until slot 6, and revoked by the leader at a later slot. -/
def revokedLog (slot : Int64) : List (Int64 × List Transaction) :=
  [(1, [commitTx 1 0 [1]]), (4, [revealTx 2 1 1 [1] 6]), (slot, [autoRevokeTx])]

end StandIn

open Network.StandIn StandIn in
/-- At slot 36, the purge slot, the REVOKE of the leader takes effect as it should. -/
theorem autoRevoke_only_purged_iff_registry :
    ∃ staged st', validateBlock registryEnv (.ascending _ _) (afterLog ((revokedLog 36).take 2)).1
        (afterLog (revokedLog 36)).2 (afterLog ((revokedLog 36).take 2)).2 (utf8 "registry") =
          .ok staged ∧
      applyDomainMutations registryEnv.E (firstPosition 36) autoRevokeTx
        (startAfter ((revokedLog 36).take 2)) = .ok (st', none) ∧
      ∃ t, (startAfter ((revokedLog 36).take 2)).im.getDomain registryEnv.E (utf8 "a.bdns") =
          some t ∧ getDomainPhase 36 t.expirySlot 1 = .purged := by
  obtain ⟨hOk, hEffect, hBefore, hTxs, hSlot, hIndex⟩ :
      (validateBlock registryEnv (.ascending _ _) (afterLog ((revokedLog 36).take 2)).1
          (afterLog (revokedLog 36)).2 (afterLog ((revokedLog 36).take 2)).2
          (utf8 "registry")).isOk = true ∧
        (applyDomainMutations registryEnv.E (firstPosition 36) autoRevokeTx
          (startAfter ((revokedLog 36).take 2))).toOption.any (fun result => result.2.isNone) =
            true ∧
        (startAfter ((revokedLog 36).take 2)).im.getDomain registryEnv.E (utf8 "a.bdns") =
          some (revealTx 2 1 1 [1] 6) ∧
        (afterLog (revokedLog 36)).2.transactions = [] ++ autoRevokeTx :: [] ∧
        (afterLog (revokedLog 36)).2.slotNumber = 36 ∧
        (afterLog (revokedLog 36)).2.index = 3 := by
    decide +kernel
  obtain ⟨staged, hStaged⟩ := exists_eq_ok hOk
  obtain ⟨⟨st', err⟩, hApply, hNone⟩ := exists_of_any hEffect
  obtain rfl : err = none := Option.isNone_iff_eq_none.mp hNone
  have hPurged : getDomainPhase 36 (revealTx 2 1 1 [1] 6).expirySlot 1 = .purged := by
    decide +kernel
  have hPosition : registryEnv.position (.ascending _ _) (afterLog (revokedLog 36)).2.slotNumber
      (afterLog (revokedLog 36)).2.index ([] : List Transaction).length = firstPosition 36 := by
    rw [hSlot, hIndex]
    rfl
  obtain ⟨-, -, hOnly⟩ := autoRevoke_only_purged_iff hStaged hTxs rfl rfl (hPosition ▸ hApply)
  obtain ⟨t, hDomain, hPhase, -⟩ := hOnly.mpr (by
    rintro ⟨t, hDomain, hGrace, -⟩
    obtain rfl := Option.some.inj (hBefore.symm.trans hDomain)
    rw [hSlot] at hGrace
    exact absurd (hPurged.symm.trans hGrace) (by decide)) rfl
  rw [hSlot] at hPhase
  exact ⟨staged, st', hStaged, hApply, t, hDomain, hPhase⟩

open Network.StandIn StandIn in
/-- At slot 10 the domain is in its grace period until slot 36. The block of the leader is accepted,
and the domain is revoked. -/
theorem autoRevoke_in_grace :
    Chain registryEnv ([registryGenesis] ++
        logBlocks (genesisState registryEnv, registryGenesis) (revokedLog 10))
      (afterLog (revokedLog 10)).1 ∧
    (afterLog ((revokedLog 10).take 2)).1.index.getDomain registryEnv.E (utf8 "a.bdns") =
      some (revealTx 2 1 1 [1] 6) ∧
    (afterLog (revokedLog 10)).2.slotNumber = 10 ∧
    getDomainPhase 10 (revealTx 2 1 1 [1] 6).expirySlot registryEnv.slotsPerDay = .grace ∧
    autoRevokeTx.ownerKey = [] ∧ autoRevokeTx ∈ (afterLog (revokedLog 10)).2.transactions ∧
    (afterLog (revokedLog 10)).1.index.getDomain registryEnv.E (utf8 "a.bdns") =
      some autoRevokeTx := by
  obtain ⟨hLog, hRest⟩ :
      logAccepted (genesisState registryEnv, registryGenesis) (revokedLog 10) = true ∧
        (afterLog ((revokedLog 10).take 2)).1.index.getDomain registryEnv.E (utf8 "a.bdns") =
          some (revealTx 2 1 1 [1] 6) ∧
        (afterLog (revokedLog 10)).2.slotNumber = 10 ∧
        getDomainPhase 10 (revealTx 2 1 1 [1] 6).expirySlot registryEnv.slotsPerDay = .grace ∧
        autoRevokeTx.ownerKey = [] ∧ autoRevokeTx ∈ (afterLog (revokedLog 10)).2.transactions ∧
        (afterLog (revokedLog 10)).1.index.getDomain registryEnv.E (utf8 "a.bdns") =
          some autoRevokeTx := by
    decide +kernel
  exact ⟨(chain_afterLog hLog).1, hRest⟩

end Frames

end Bdns.Safety
