import Bdns.Blockchain.DomainGate
import Bdns.Safety.Entries

/-!
# Purging

A domain is to be revoked at its purge slot, at the end of its grace period. The index lists
domains by purge slot, a block is refused that leaves out one of the list of its slot, and the
leader adds the missing revocations by itself. Three things are looked at: whether the
revocations of the leader pass, whether those that the list demands can pass, and whether a
domain is revoked in the end.
-/

namespace Bdns.Safety

open Lib Blockchain Network Index Validation

/-! ## The revocations of the leader -/

/-- Without key and signature nothing passes. -/
theorem validateTx_ne_ok_of_unsigned {V : Validation} {tx : Transaction}
    (hKey : tx.ownerKey = []) (hSignature : tx.signature = []) (sh sh' : Shadow) :
    V.validateTx sh tx ≠ .ok sh' := by
  intro h
  obtain ⟨domains, -, ⟨-, hCheck, -⟩ | ⟨hSigned, -⟩⟩ := validateTx_eq_ok h
  · unfold checkOwnerless at hCheck
    obtain ⟨_, -, hCheck⟩ := bind_eq_ok.mp hCheck
    obtain ⟨_, -, hCheck⟩ := bind_eq_ok.mp hCheck
    obtain ⟨_, hVerify, -⟩ := bind_eq_ok.mp hCheck
    have hTrue := require_eq_ok.mp hVerify
    unfold verifySignature External.verify at hTrue
    rw [hSignature] at hTrue
    split at hTrue
    · exact absurd hTrue (by simp)
    · exact absurd hTrue (by simp)
  · exact hSigned (by simp [hKey])

section AutoRevocations

variable {im : IndexManager} {slot : Int64} {chosen : List Transaction}

theorem unsigned_of_mem_generateAutoRevocations {revoke : Transaction}
    (h : revoke ∈ generateAutoRevocations im slot chosen) :
    revoke.ownerKey = [] ∧ revoke.signature = [] := by
  unfold generateAutoRevocations at h
  obtain ⟨tx, -, rfl⟩ := List.mem_map.mp h
  exact ⟨rfl, rfl⟩

/-- The leader has nothing to revoke where the block renews all that the slot lists. -/
theorem generateAutoRevocations_eq_nil :
    generateAutoRevocations im slot chosen = [] ↔ ∀ t ∈ im.getPurgeableDomains slot,
      ∃ pending ∈ chosen, pending.type = .renew ∧ pending.domainName = t.domainName := by
  unfold generateAutoRevocations
  rw [List.map_eq_nil_iff, List.eq_nil_iff_forall_not_mem]
  simp only [List.mem_insertionSort, List.mem_filter, not_and, Bool.not_eq_true',
    Bool.not_eq_false, List.any_eq_true, Bool.and_eq_true, decide_eq_true_eq, beq_iff_eq]

end AutoRevocations

/-- The revocations at the front of a leader's block pass exactly where there are none: every
listed domain is renewed by the block. -/
theorem autoRevocations_pass_iff (V : Validation) (im : IndexManager) (slot : Int64)
    (chosen : List Transaction) :
    (∃ sh, V.run (generateAutoRevocations im slot chosen) = .ok sh) ↔
      ∀ t ∈ im.getPurgeableDomains slot,
        ∃ pending ∈ chosen, pending.type = .renew ∧ pending.domainName = t.domainName := by
  rw [← generateAutoRevocations_eq_nil]
  constructor
  · rintro ⟨sh, hRun⟩
    rw [List.eq_nil_iff_forall_not_mem]
    intro revoke hMem
    obtain ⟨hKey, hSignature⟩ := unsigned_of_mem_generateAutoRevocations hMem
    obtain ⟨sh₁, sh₂, hStep⟩ := foldlM_mem hRun hMem
    exact validateTx_ne_ok_of_unsigned hKey hSignature sh₁ sh₂ hStep
  · intro hNil
    rw [hNil]
    exact ⟨{}, rfl⟩

/-- A domain is registered in slot 4, until slot 5; its purge slot is 35. -/
def purgeLog : List (Int64 × List Transaction) :=
  [(1, [StandIn.commitTx 1 0 [1]]), (4, [StandIn.revealTx 2 1 1 [1] 5])]

/-- The block of an honest leader of slot 35 with nothing in its pool. -/
def purgeBlock : Block :=
  StandIn.extend StandIn.registryEnv (StandIn.leader (utf8 "registry") 35) 35
    (generateAutoRevocations (StandIn.afterLog purgeLog).1.index 35 [])
    (StandIn.afterLog purgeLog).1 (StandIn.afterLog purgeLog).2

/-- The unsigned REVOKE of the domain. -/
def purgeRevoke : Transaction :=
  { tid := 2, type := .revoke, redeemsTxID := 2, expirySlot := 5, domainName := utf8 "a.bdns" }

/-- The leader revokes the domain, twice since it is listed twice, and every other node refuses
the block for it. -/
theorem autoRevocation_is_refused :
    StandIn.logAccepted (genesisState StandIn.registryEnv, StandIn.registryGenesis) purgeLog =
        true ∧
      generateAutoRevocations (StandIn.afterLog purgeLog).1.index 35 [] =
        [purgeRevoke, purgeRevoke] ∧
      purgeBlock.transactions = [purgeRevoke, purgeRevoke] ∧
      (blockValidation StandIn.registryEnv (StandIn.afterLog purgeLog).1 purgeBlock).run
        [purgeRevoke] = .error .reject ∧
      validateBlock StandIn.registryEnv (.ascending _ _) (StandIn.afterLog purgeLog).1 purgeBlock
        (StandIn.afterLog purgeLog).2 (utf8 "registry") = .error (.reject .transactions) := by
  -- one evaluation for all facts about the log
  obtain ⟨hLog, hRevocations, hTxs, hRefused, hRejected⟩ :
      StandIn.logAccepted (genesisState StandIn.registryEnv, StandIn.registryGenesis) purgeLog =
          true ∧
        generateAutoRevocations (StandIn.afterLog purgeLog).1.index 35 [] =
          [purgeRevoke, purgeRevoke] ∧
        purgeBlock.transactions = [purgeRevoke, purgeRevoke] ∧
        ((blockValidation StandIn.registryEnv (StandIn.afterLog purgeLog).1 purgeBlock).run
          [purgeRevoke]).map (fun _ => ()) = .error .reject ∧
        (validateBlock StandIn.registryEnv (.ascending _ _) (StandIn.afterLog purgeLog).1 purgeBlock
          (StandIn.afterLog purgeLog).2 (utf8 "registry")).map (fun _ => ()) =
            .error (.reject .transactions) := by
    decide +kernel
  exact ⟨hLog, hRevocations, hTxs, eq_error_of_map hRefused, eq_error_of_map hRejected⟩

/-! ## What the lists demand -/

/-- No transaction with an expiry slot is followed by another of its domain, or redeemed. -/
structure Undisturbed (txs : List Transaction) : Prop where
  last : txs.Pairwise fun tx later => Writes tx → Writes later →
    tx.domainName = later.domainName → tx.expirySlot ≤ 0
  unredeemed : ∀ tx ∈ txs, ∀ other ∈ txs, Writes tx → Writes other → 0 < tx.expirySlot →
    other.redeemsTxID ≠ tx.tid

theorem Undisturbed.of_append {txs later : List Transaction} (h : Undisturbed (txs ++ later)) :
    Undisturbed txs where
  last := (List.pairwise_append.mp h.last).1
  unredeemed tx hTx other hOther :=
    h.unredeemed tx (List.mem_append_left _ hTx) other (List.mem_append_left _ hOther)

section Obligations

variable {env : Env} {names : Set Bytes} {blocks : List Block} {s : ChainState}

/-- What is listed after a block was listed before it, or is in the journal. -/
theorem mem_purgeIndex_installValidated {order : JournalOrder} {txs : List Transaction}
    {staged : Staged} {slot : Int64} {t : Transaction}
    (h : t ∈ (installValidated env order txs staged s).index.purgeIndex slot) :
    t ∈ s.index.purgeIndex slot ∨
      ∃ (d : Bytes) (entry : OverlayEntry), staged.im.journal[d]? = some entry ∧
        entry.addedTx = some t := by
  rcases (mem_purgeIndex_commit _ (order.perm _) _ slot t).mp h with h | ⟨d, entry, hEntry, hAdded, -⟩
  · rcases (mem_purgeIndex_commit _ (order.perm _) _ slot t).mp h with
      h | ⟨d, entry, hEntry, hAdded, -⟩
    · exact .inl h
    · exact .inr ⟨d, entry, hEntry, hAdded⟩
  · exact .inr ⟨d, entry, hEntry, hAdded⟩

/-- Undisturbed, a listed transaction stands for its domain. -/
theorem current_of_listed (hInj : Set.InjOn env.E.sha256 names) (hChain : Chain env blocks s)
    (hNames : ∀ tx ∈ acceptedTxs blocks, tx.domainName ∈ names)
    (hAlone : Undisturbed (acceptedTxs blocks)) {slot : Int64} {t : Transaction}
    (ht : t ∈ s.index.purgeIndex slot) : s.index.getDomain env.E t.domainName = some t := by
  induction hChain generalizing slot t with
  | genesis block => exact absurd ht List.not_mem_nil
  | @add blocks s latest b order slotLeader staged chain tip accepted ih =>
    have hBlocks : blocks ≠ [] := by
      rintro rfl
      simp at tip
    rw [acceptedTxs_concat hBlocks] at hNames hAlone
    obtain ⟨-, -, hStages⟩ := validateBlock_eq_ok accepted
    obtain ⟨hJournal, -⟩ := journalFrom_of_stages hStages
    have hIndex := indexFrom_of_chain chain
    obtain ⟨hTraced, hReal⟩ : Traced env names (· ∈ acceptedTxs blocks ++ b.transactions) staged.im ∧
        staged.im.real = s.index :=
      traced_of_stages hStages (hIndex.mono fun tx hTx => List.mem_append_left _ hTx)
        (fun tx hTx => List.mem_append_right _ hTx)
        (fun tx hTx => hNames tx (List.mem_append_right _ hTx))
    rcases mem_purgeIndex_installValidated ht with hOld | ⟨d, entry, hEntry, hAdded⟩
    · obtain ⟨hPositive, tx, hTx, hWrites, hStored⟩ := hIndex.purge slot t hOld
      have hName : t.domainName ∈ names :=
        hStored.domainName ▸ hNames tx (List.mem_append_left _ hTx)
      have hBefore := ih (fun tx hTx => hNames tx (List.mem_append_left _ hTx)) hAlone.of_append hOld
      rw [getDomain_installValidated order _ hTraced hReal hInj hName]
      unfold IndexOverlay.getDomain
      cases hEntry : staged.im.journal[t.domainName]? with
      | none => exact hReal ▸ hBefore
      | some entry =>
        cases hAdded : entry.addedTx with
        | none => exact (hTraced.journal.unchanged _ entry hEntry hAdded).trans (hReal ▸ hBefore)
        | some t' =>
          -- a transaction of the block would have followed the listed one
          obtain ⟨later, hLater, hWrites', hName', -⟩ := hJournal.added _ entry t' hEntry hAdded
          have hNone := (List.pairwise_append.mp hAlone.last).2.2 tx hTx later hLater hWrites hWrites'
            (hStored.domainName.symm.trans hName'.symm)
          rw [← hStored.expirySlot] at hNone
          exact absurd hPositive (Int64.not_lt.mpr hNone)
    · obtain ⟨tx, hTx, -, rfl, hStored⟩ := hJournal.added d entry t hEntry hAdded
      rw [hStored.domainName, getDomain_installValidated order _ hTraced hReal hInj
        (hNames tx (List.mem_append_right _ hTx))]
      unfold IndexOverlay.getDomain
      rw [hEntry]
      exact tx_of_addedTx hAdded

/-- Before a block, the affinity gate looks for the redeemed transaction in the index. -/
theorem checkRedeems_revoke_ok {b : Block} {revoke found : Transaction}
    (hType : revoke.type = .revoke) (hSpent : s.index.isSpent revoke.redeemsTxID = false)
    (hFound : s.index.getTxByID revoke.redeemsTxID = some found)
    (hName : found.domainName = revoke.domainName) :
    ∃ sh, (blockValidation env s b).checkRedeems {} revoke = .ok sh := by
  have hIm : (blockValidation env s b).im.getTxByID revoke.redeemsTxID = some found := hFound
  have hUnspent : (blockValidation env s b).im.isSpent revoke.redeemsTxID = false := hSpent
  unfold checkRedeems
  by_cases hRedeems : revoke.redeemsTxID ≠ 0 ∧ (revoke.type = .register ∨ revoke.type = .update ∨
      revoke.type = .renew ∨ revoke.type = .revoke ∨ revoke.type = .reveal)
  · rw [if_pos hRedeems, hUnspent, hIm]
    simp [hType, hName, require, check, pure, Except.pure, bind, Except.bind]
  · rw [if_neg hRedeems]
    exact ⟨{}, rfl⟩

/-- On a chain on which no transaction with an expiry slot is followed by another of its domain or
redeemed, what the lists demand can be met: a listed transaction stands for its domain, is not
spent, and a REVOKE that redeems it passes the gates on redeemed transactions. -/
theorem purge_obligation_can_be_met (hInj : Set.InjOn env.E.sha256 names)
    (hChain : Chain env blocks s) (hNames : ∀ tx ∈ acceptedTxs blocks, tx.domainName ∈ names)
    (hTids : TidsNameDomains fun tx => tx ∈ acceptedTxs blocks ∧ Writes tx)
    (hAlone : Undisturbed (acceptedTxs blocks)) (slot : Int64) :
    ∀ t ∈ s.index.getPurgeableDomains slot,
      s.index.getDomain env.E t.domainName = some t ∧ s.index.isSpent t.tid = false ∧
        ∀ (b : Block) (revoke : Transaction), revoke.type = .revoke →
          revoke.domainName = t.domainName → revoke.redeemsTxID = t.tid →
          ∃ sh, (blockValidation env s b).checkRedeems {} revoke = .ok sh := by
  intro t ht
  have hIndex := indexFrom_of_chain hChain
  have hCurrent := current_of_listed hInj hChain hNames hAlone ht
  obtain ⟨hPositive, tx, hTx, hWrites, hStored⟩ := hIndex.purge slot t ht
  have hUnspent : s.index.isSpent t.tid = false := by
    rw [Bool.eq_false_iff]
    intro hSpent
    obtain ⟨other, hOther, hWrites', hRedeems⟩ := hIndex.spent t.tid hSpent
    exact hAlone.unredeemed tx hTx other hOther hWrites hWrites' (hStored.expirySlot ▸ hPositive)
      (hRedeems.trans hStored.tid)
  refine ⟨hCurrent, hUnspent, fun b revoke hType hName hRedeems => ?_⟩
  -- the number leads to a transaction of the domain, if not to `t` itself
  obtain ⟨found, hFound⟩ := Option.isSome_iff_exists.mp
    (getTxByID_isSome (.newIndexOverlay s.index) id hCurrent)
  have hTraced : Traced env names (· ∈ acceptedTxs blocks) (.newIndexOverlay s.index) :=
    .newIndexOverlay hIndex
  obtain ⟨hTid, ⟨tx', hTx', hWrites', hStored'⟩, -⟩ :=
    hTraced.of_getTxByID hNames hInj (fun _ => .refl _) hFound
  have hDomain : tx'.domainName = tx.domainName :=
    hTids tx' tx ⟨hTx', hWrites'⟩ ⟨hTx, hWrites⟩
      (hStored'.tid.symm.trans (hTid.trans hStored.tid))
  have hFoundName : found.domainName = revoke.domainName := by
    rw [hStored'.domainName, hDomain, ← hStored.domainName, hName]
  exact checkRedeems_revoke_ok hType (hRedeems ▸ hUnspent) (hRedeems ▸ hFound) hFoundName

end Obligations

/-- The sample chain after the registration of a domain until slot 1000. -/
theorem purge_obligation_can_be_met_registry :
    StandIn.revealTx 2 1 1 [1] 1000 ∈
        (StandIn.registryChain 2).1.index.getPurgeableDomains 1030 ∧
      (StandIn.registryChain 2).1.index.getDomain StandIn.registryEnv.E (utf8 "a.bdns") =
        some (StandIn.revealTx 2 1 1 [1] 1000) ∧
      (StandIn.registryChain 2).1.index.isSpent 2 = false ∧
      ∃ sh, (blockValidation StandIn.registryEnv (StandIn.registryChain 2).1
        (StandIn.registryChain 3).2).checkRedeems {} (StandIn.revokeTx 3 2 2) = .ok sh := by
  obtain ⟨hListed, hTxs⟩ : StandIn.revealTx 2 1 1 [1] 1000 ∈
        (StandIn.registryChain 2).1.index.getPurgeableDomains 1030 ∧
      acceptedTxs (StandIn.registryBlocks 2) =
        [StandIn.commitTx 1 0 [1], StandIn.revealTx 2 1 1 [1] 1000] := by
    decide +kernel
  have hInj : Set.InjOn StandIn.registryEnv.E.sha256 {d | d ∈ [[], utf8 "a.bdns"]} :=
    Blockchain.StandIn.injOn_of_forall [[], utf8 "a.bdns"] (fun _ h => h) (by decide +kernel)
  have hTids : ∀ t ∈ acceptedTxs (StandIn.registryBlocks 2),
      ∀ t' ∈ acceptedTxs (StandIn.registryBlocks 2), Writes t → Writes t' → t.tid = t'.tid →
        t.domainName = t'.domainName := by
    rw [hTxs]
    decide +kernel
  have hAlone : Undisturbed (acceptedTxs (StandIn.registryBlocks 2)) := by
    rw [hTxs]
    exact ⟨by decide +kernel, by decide +kernel⟩
  obtain ⟨hCurrent, hUnspent, hPasses⟩ :=
    purge_obligation_can_be_met hInj (StandIn.chain_registryBlocks (n := 2) (by decide))
      (by rw [hTxs]; decide +kernel) (fun t t' ht ht' => hTids t ht.1 t' ht'.1 ht.2 ht'.2) hAlone
      1030 _ hListed
  exact ⟨hListed, hCurrent, hUnspent, hPasses _ _ rfl rfl rfl⟩

/-- The owner updates the domain while it is active. -/
def earlyUpdate : Transaction :=
  StandIn.registryTx
    { tid := 3, type := .update, nonce := 2, redeemsTxID := 2, expirySlot := 2000
      domainName := utf8 "a.bdns", records := [⟨utf8 "A", utf8 "1.2.3.4", 0⟩] }

def updateLog : List (Int64 × List Transaction) :=
  [(1, [StandIn.commitTx 1 0 [1]]), (4, [StandIn.revealTx 2 1 1 [1] 1000]), (5, [earlyUpdate])]

/-- After an UPDATE the registration is still listed under its purge slot, though it is spent and
does not stand for the domain. No REVOKE that redeems it passes. -/
theorem updated_registration_stays_listed :
    StandIn.logAccepted (genesisState StandIn.registryEnv, StandIn.registryGenesis) updateLog =
        true ∧
      StandIn.revealTx 2 1 1 [1] 1000 ∈
        (StandIn.afterLog updateLog).1.index.getPurgeableDomains 1030 ∧
      (StandIn.afterLog updateLog).1.index.getDomain StandIn.registryEnv.E (utf8 "a.bdns") =
        some earlyUpdate ∧
      (StandIn.afterLog updateLog).1.index.isSpent 2 = true ∧
      ∀ (b : Block) (revoke : Transaction) (sh sh' : DomainShadow), revoke.type = .revoke →
        revoke.redeemsTxID = 2 →
        (blockValidation StandIn.registryEnv (StandIn.afterLog updateLog).1 b).checkRedeems sh
          revoke ≠ .ok sh' := by
  obtain ⟨hLog, hListed, hCurrent, hSpent⟩ :
      StandIn.logAccepted (genesisState StandIn.registryEnv, StandIn.registryGenesis) updateLog =
          true ∧
        StandIn.revealTx 2 1 1 [1] 1000 ∈
          (StandIn.afterLog updateLog).1.index.getPurgeableDomains 1030 ∧
        (StandIn.afterLog updateLog).1.index.getDomain StandIn.registryEnv.E (utf8 "a.bdns") =
          some earlyUpdate ∧
        (StandIn.afterLog updateLog).1.index.isSpent 2 = true := by
    decide +kernel
  refine ⟨hLog, hListed, hCurrent, hSpent, ?_⟩
  intro b revoke sh sh' hType hRedeems hOk
  have hUnspent : (StandIn.afterLog updateLog).1.index.isSpent revoke.redeemsTxID = false :=
    ((checkRedeems_eq_ok hOk).2 (by simp [hRedeems]) (.inr (.inr (.inl hType)))).2
  rw [hRedeems, hSpent] at hUnspent
  exact absurd hUnspent (by decide)

/-! ## What becomes of an expired domain -/

/-- A REVOKE stands for the domain. -/
def Revoked (E : External) (d : Bytes) (o : IndexOverlay) : Prop :=
  ∃ t, o.getDomain E d = some t ∧ t.type = .revoke

/-- Only another REVOKE takes its place, where no other write of the domain is made. -/
theorem Revoked.step {E : External} {pos : Position} {tx : Transaction} {st st' : DomainState}
    {err : Option Bytes} {d : Bytes} (h : Revoked E d st.im)
    (hOnly : tx.domainName = d → Writes tx → tx.type = .revoke)
    (hEffect : DomainEffect E pos tx st st' err) : Revoked E d st'.im := by
  obtain hSame | ⟨rfl, hReplaces⟩ := entry_of_effect hEffect d
  · obtain ⟨t, ht, hType⟩ := h
    exact ⟨t, hSame.trans ht, hType⟩
  · obtain ⟨t, ht, hStored⟩ := hReplaces.stored
    exact ⟨t, ht, hStored.type.trans (hOnly rfl hReplaces.writes)⟩

/-- A revocation by the slot leader takes effect once the domain has expired. -/
theorem applyDomainMutations_leader_revoke {E : External} {pos : Position}
    {tx existingTx : Transaction} {st : DomainState} (hType : tx.type = .revoke)
    (hKey : tx.ownerKey.length = 0) (hOwn : redeemsOwnDomain pos tx st = true)
    (hExisting : st.im.getDomain E tx.domainName = some existingTx)
    (hPhase : getDomainPhase pos.currentSlot existingTx.expirySlot pos.slotsPerDay ≠ .active) :
    applyDomainMutations E pos tx st = .ok (revokeDomain E pos tx st, none) := by
  have hSigner : ¬ (0 < tx.ownerKey.length ∧ ownedBySigner E tx st = false) := by
    simp [hKey]
  unfold applyDomainMutations
  rw [hType]
  dsimp only
  rw [applyRevoke, if_neg hSigner, if_neg (by simp [hOwn]), if_pos hKey, hExisting]
  dsimp only
  rw [if_neg hPhase]
  rfl

/-- Without a RENEW, the purge obligation is a REVOKE that redeems the listed transaction. -/
theorem exists_revoke_of_purgesMet {purgeable txs : List Transaction} {expected : Transaction}
    (h : purgesMet purgeable txs = true) (hMem : expected ∈ purgeable)
    (hNoRenew : ∀ tx ∈ txs, tx.domainName = expected.domainName → tx.type ≠ .renew) :
    ∃ revoke ∈ txs, revoke.type = .revoke ∧ revoke.domainName = expected.domainName ∧
      revoke.redeemsTxID = expected.tid := by
  have hMet := List.all_eq_true.mp h expected hMem
  simp only [Bool.or_eq_true, List.any_eq_true, Bool.and_eq_true, decide_eq_true_eq,
    beq_iff_eq] at hMet
  rcases hMet with ⟨tx, hTx, hType, hName⟩ | ⟨revoke, hRevoke, ⟨hType, hName⟩, hRedeems⟩
  · exact absurd hType (hNoRenew tx hTx hName)
  · exact ⟨revoke, hRevoke, hType, hName, hRedeems⟩

theorem getDomainPhase_at_purge_slot {slot expirySlot slotsPerDay : Int64}
    (hSlot : slot = computePurgeSlot expirySlot slotsPerDay) (hExpired : expirySlot ≤ slot) :
    getDomainPhase slot expirySlot slotsPerDay = .purged := by
  unfold getDomainPhase
  rw [if_neg (Int64.not_lt.mpr hExpired), if_neg fun hLt => Int64.lt_irrefl (hSlot ▸ hLt)]

section Block

variable {env : Env} {names : Set Bytes} {pool : Transaction → Prop} {order : JournalOrder}
  {s : ChainState} {b : Block} {staged : Staged} {d : Bytes} {reg : Transaction}

/-- What is true of the overlay through the passes of a block. -/
theorem domainPass_traced {before rest : List Transaction} {slot blockIndex : Int64}
    {start st final : DomainState} (I : DomainState → Prop)
    (hStep : ∀ tx ∈ rest, ∀ i st st' err, Traced env names pool st.im →
      st.im.real = s.index → I st →
      DomainEffect env.E (env.position order slot blockIndex i) tx st st' err → I st')
    (hPool : ∀ tx ∈ rest, pool tx) (hNames : ∀ tx ∈ rest, tx.domainName ∈ names)
    (hBefore : domainPass env order slot blockIndex before start = .ok st)
    (hTraced : Traced env names pool st.im) (hReal : st.im.real = s.index) (hInit : I st)
    (h : domainPass env order slot blockIndex (before ++ rest) start = .ok final) :
    Traced env names pool final.im ∧ final.im.real = s.index ∧ I final := by
  refine domainPass_invariant_from (fun st => Traced env names pool st.im ∧
    st.im.real = s.index ∧ I st) ?_ hBefore ⟨hTraced, hReal, hInit⟩ h
  rintro tx hMem i st st' err ⟨hTraced, hReal, hI⟩ hApply
  have hEffect := applyDomainMutations_eq_ok hApply
  exact ⟨hTraced.step rfl (hPool tx hMem) (hNames tx hMem) hEffect,
    (real_of_effect hEffect).trans hReal, hStep tx hMem i st st' err hTraced hReal hI hEffect⟩

/-- The domain keeps its REVOKE through a block without another write of the domain. -/
theorem revoked_of_stages (hStages : Stages env order s b staged)
    (hOnly : ∀ tx ∈ b.transactions, tx.domainName = d → Writes tx → tx.type = .revoke)
    (h : Revoked env.E d (.newIndexOverlay s.index)) : Revoked env.E d staged.im := by
  obtain ⟨⟨ledger, st, -, hDomain, -, hIm, -⟩, -⟩ := hStages
  rw [hIm]
  refine domainPass_invariant (fun st => Revoked env.E d st.im) ?_ h hDomain
  intro tx hMem i st st' err hRevoked hApply
  exact hRevoked.step (hOnly tx hMem) (applyDomainMutations_eq_ok hApply)

/-- In the block of the purge slot, what is written of the domain are revocations by the slot
leader. -/
theorem leader_revokes_at_purge_slot {sh : Shadow}
    (hReg : s.index.getDomain env.E d = some reg)
    (hRun : (blockValidation env s b).run b.transactions = .ok sh)
    (hSlot : b.slotNumber = computePurgeSlot reg.expirySlot env.slotsPerDay)
    (hExpired : reg.expirySlot ≤ b.slotNumber)
    (hNever : ∀ tx ∈ b.transactions, tx.domainName = d → tx.type ≠ .renew ∧ tx.type ≠ .reveal) :
    ∀ tx ∈ b.transactions, tx.domainName = d → Writes tx →
      tx.type = .revoke ∧ tx.ownerKey.length = 0 := by
  rintro tx hMem rfl hWrites
  obtain ⟨before, after, hSplit⟩ := List.append_of_mem hMem
  obtain ⟨sh₁, sh₂, hBefore, hValid⟩ := run_split hRun hSplit
  have hType : tx.type = .update ∨ tx.type = .revoke := by
    rcases hWrites with hType | hType | hType | hType | hType
    · exact absurd hType (type_ne_register_of_validateTx hValid)
    · exact absurd hType (hNever tx hMem rfl).2
    · exact .inr hType
    · exact .inl hType
    · exact absurd hType (hNever tx hMem rfl).1
  have hKey : tx.ownerKey.length = 0 := by
    by_contra hKey
    rcases phase_of_validateTx hValid hType hKey hReg with hRegistered | hPhase
    · obtain ⟨reveal, hReveal, hRevealType, hName⟩ := (registered_run hBefore _).mp hRegistered
      exact (hNever reveal (hSplit ▸ List.mem_append_left _ hReveal) hName).2 hRevealType
    · exact hPhase (getDomainPhase_at_purge_slot hSlot hExpired)
  exact ⟨type_of_ownerless hValid hKey, hKey⟩

section Registered

variable (hNames : ∀ tx, pool tx → tx.domainName ∈ names) (hInj : Set.InjOn env.E.sha256 names)
  (hIndex : IndexFrom env pool s.index) (hPool : ∀ tx ∈ b.transactions, pool tx)
  (hStages : Stages env order s b staged) (hReg : s.index.getDomain env.E d = some reg)

include hNames hInj hIndex hPool hStages hReg

/-- Who replaces the registration of a domain redeems it. -/
theorem kept_or_spent_of_stages {sh : Shadow}
    (hRun : (blockValidation env s b).run b.transactions = .ok sh)
    (hNever : ∀ tx ∈ b.transactions, tx.domainName = d → tx.type ≠ .reveal) :
    staged.im.getDomain env.E d = some reg ∨ staged.im.pendingSpent reg.tid = true := by
  obtain ⟨⟨ledger, st, -, hDomain, -, hIm, -⟩, -⟩ := hStages
  rw [hIm]
  have hNil : domainPass env order b.slotNumber b.index [] (domainStart s b ledger) =
      .ok (domainStart s b ledger) := rfl
  refine (domainPass_traced (fun st => st.im.getDomain env.E d = some reg ∨
    st.im.pendingSpent reg.tid = true) ?_ hPool (fun tx hMem => hNames tx (hPool tx hMem)) hNil
    (.newIndexOverlay hIndex) rfl (.inl hReg) hDomain).2.2
  rintro tx hMem i st st' err hTraced hReal (hKept | hSpent) hEffect
  · obtain hSame | ⟨rfl, hReplaces⟩ := entry_of_effect hEffect d
    · exact .inl (hSame.trans hKept)
    · refine .inr ?_
      obtain ⟨sh₁, sh₂, hValid⟩ := foldlM_mem hRun hMem
      have hType : tx.type = .update ∨ tx.type = .renew ∨ tx.type = .revoke := by
        rcases hReplaces.writes with hType | hType | hType | hType | hType
        · exact absurd hType (type_ne_register_of_validateTx hValid)
        · exact absurd hType (hNever tx hMem rfl)
        · exact .inr (.inr hType)
        · exact .inl hType
        · exact .inr (.inl hType)
      obtain ⟨hOwn, hMarked⟩ := hReplaces.own hType (redeems_of_validateTx hValid hType)
      -- the redeemed transaction stands for the domain, so it is the registration
      obtain ⟨found, hFound, hName⟩ := redeemsOwnDomain_eq_true.mp hOwn
      obtain ⟨hTid, -, hStands⟩ := hTraced.of_getTxByID hNames hInj (order.perm i) hFound
      rw [hName, hReal] at hStands
      obtain rfl : found = reg := by
        rcases hStands with hOverlay | hUnder
        · exact Option.some.inj (hOverlay.symm.trans hKept)
        · exact Option.some.inj (hUnder.symm.trans hReg)
      rw [hTid]
      exact hMarked
  · exact .inr (pendingSpent_of_effect hEffect hSpent)

/-- The block of the purge slot revokes the domain. -/
theorem revoked_at_purge_slot {sh : Shadow}
    (hTids : TidsNameDomains fun tx => pool tx ∧ Writes tx) (hName : reg.domainName = d)
    (hRun : (blockValidation env s b).run b.transactions = .ok sh)
    (hSlot : b.slotNumber = computePurgeSlot reg.expirySlot env.slotsPerDay)
    (hExpired : reg.expirySlot ≤ b.slotNumber)
    (hNever : ∀ tx ∈ b.transactions, tx.domainName = d → tx.type ≠ .renew ∧ tx.type ≠ .reveal)
    {revoke : Transaction} (hMem : revoke ∈ b.transactions) (hRevokeName : revoke.domainName = d)
    (hType : revoke.type = .revoke) (hRedeems : revoke.redeemsTxID = reg.tid) :
    Revoked env.E d staged.im := by
  have hLeader := leader_revokes_at_purge_slot hReg hRun hSlot hExpired hNever
  obtain ⟨⟨ledger, final, -, hDomain, -, hIm, -⟩, -⟩ := hStages
  rw [hIm]
  obtain ⟨before, after, hSplit⟩ := List.append_of_mem hMem
  obtain ⟨st, st', err, hBefore, hApply, hThrough⟩ := domainPass_split hSplit hDomain
  have hBeforeMem : ∀ tx ∈ before, tx ∈ b.transactions := fun tx hTx =>
    hSplit ▸ List.mem_append_left _ hTx
  -- up to the revocation the registration stands, or an earlier REVOKE
  have hNil : domainPass env order b.slotNumber b.index [] (domainStart s b ledger) =
      .ok (domainStart s b ledger) := rfl
  obtain ⟨hTraced, hReal, hStands⟩ := domainPass_traced (fun st =>
      st.im.getDomain env.E d = some reg ∨ Revoked env.E d st.im)
    (by
      rintro tx hTx i st st' err - - hStands hEffect
      obtain hSame | ⟨rfl, hReplaces⟩ := entry_of_effect hEffect d
      · rcases hStands with hKept | ⟨t, ht, hRevoke⟩
        · exact .inl (hSame.trans hKept)
        · exact .inr ⟨t, hSame.trans ht, hRevoke⟩
      · obtain ⟨t, ht, hStored⟩ := hReplaces.stored
        exact .inr ⟨t, ht, hStored.type.trans
          (hLeader tx (hBeforeMem tx hTx) rfl hReplaces.writes).1⟩)
    (fun tx hTx => hPool tx (hBeforeMem tx hTx))
    (fun tx hTx => hNames tx (hPool tx (hBeforeMem tx hTx))) hNil (.newIndexOverlay hIndex) rfl
    (.inl hReg) hBefore
  have hOnly : ∀ tx ∈ b.transactions, tx.domainName = d → Writes tx → tx.type = .revoke :=
    fun tx hTx hEq hWrites => (hLeader tx hTx hEq hWrites).1
  have hRevoked : Revoked env.E d st'.im := by
    rcases hStands with hKept | hRevoked
    · have hOwn : redeemsOwnDomain (env.position order b.slotNumber b.index before.length) revoke
          st = true :=
        hTraced.redeemsOwnDomain hNames hInj hTids (order.perm _) (hReal ▸ hReg) hRedeems
          (hName.trans hRevokeName.symm)
      have hPhase : getDomainPhase b.slotNumber reg.expirySlot env.slotsPerDay ≠ .active := by
        rw [getDomainPhase_at_purge_slot hSlot hExpired]
        decide
      have hKey := (hLeader revoke hMem hRevokeName (.inr (.inr (.inl hType)))).2
      rw [applyDomainMutations_leader_revoke hType hKey hOwn (hRevokeName ▸ hKept) hPhase] at hApply
      obtain ⟨rfl, -⟩ := Prod.mk.inj (Except.ok.inj hApply)
      exact ⟨revoke, by rw [getDomain_revokeDomain, if_pos hRevokeName], hType⟩
    · exact hRevoked.step (hOnly revoke hMem) (applyDomainMutations_eq_ok hApply)
  have hAll : domainPass env order b.slotNumber b.index (before ++ [revoke] ++ after)
      (domainStart s b ledger) = .ok final := by
    rw [List.append_assoc]
    exact hSplit ▸ hDomain
  refine domainPass_invariant_from (fun st => Revoked env.E d st.im) ?_ hThrough hRevoked hAll
  intro tx hTx i st st' err hRevoked hApply
  exact hRevoked.step (hOnly tx (hSplit ▸ List.mem_append_right _ (List.mem_cons_of_mem _ hTx)))
    (applyDomainMutations_eq_ok hApply)

end Registered

end Block

/-! ## Along a chain -/

/-- What is listed stays listed. -/
theorem mem_purgeIndex_of_mem {env : Env} {order : JournalOrder} {txs : List Transaction}
    {staged : Staged} {s : ChainState} {slot : Int64} {t : Transaction}
    (h : t ∈ s.index.purgeIndex slot) :
    t ∈ (installValidated env order txs staged s).index.purgeIndex slot :=
  (mem_purgeIndex_commit _ (order.perm _) _ slot t).mpr
    (.inl ((mem_purgeIndex_commit _ (order.perm _) _ slot t).mpr (.inl h)))

/-- A registered domain after some more blocks: the registration is listed, it stands unless it is
spent, and the block of its purge slot has revoked the domain. -/
structure Fate (env : Env) (d : Bytes) (reg : Transaction) (after : List Block)
    (s : ChainState) : Prop where
  listed : reg ∈ s.index.purgeIndex (computePurgeSlot reg.expirySlot env.slotsPerDay)
  kept : s.index.getDomain env.E d = some reg ∨ s.index.isSpent reg.tid = true
  revoked : (∃ b ∈ after, b.slotNumber = computePurgeSlot reg.expirySlot env.slotsPerDay) →
    Revoked env.E d (.newIndexOverlay s.index)

/-- No block renews or registers the domain again, and none after the purge slot updates it. -/
structure LeftAlone (env : Env) (d : Bytes) (reg : Transaction) (after : List Block) : Prop where
  never : ∀ b ∈ after, ∀ tx ∈ b.transactions, tx.domainName = d →
    tx.type ≠ .renew ∧ tx.type ≠ .reveal
  updates : ∀ b ∈ after, computePurgeSlot reg.expirySlot env.slotsPerDay < b.slotNumber →
    ∀ tx ∈ b.transactions, tx.domainName = d → tx.type ≠ .update

section Run

variable {env : Env} {names : Set Bytes} {pool : Transaction → Prop} {d : Bytes}
  {reg : Transaction} {after : List Block} {s : ChainState} {latest b : Block}
  {order : JournalOrder} {slotLeader : Bytes} {staged : Staged}
  (hNames : ∀ tx, pool tx → tx.domainName ∈ names) (hInj : Set.InjOn env.E.sha256 names)
  (hTids : TidsNameDomains fun tx => pool tx ∧ Writes tx) (hd : d ∈ names)
  (hName : reg.domainName = d)
  (hExpired : reg.expirySlot ≤ computePurgeSlot reg.expirySlot env.slotsPerDay)

include hNames hInj hTids hd hName hExpired

/-- One more block. -/
theorem Fate.step (h : Fate env d reg after s) (hIndex : IndexFrom env pool s.index)
    (hAccepted : validateBlock env order s b latest slotLeader = .ok staged)
    (hLater : ∀ b' ∈ after, b'.slotNumber < b.slotNumber) (hPool : ∀ tx ∈ b.transactions, pool tx)
    (hAlone : LeftAlone env d reg (after ++ [b])) :
    Fate env d reg (after ++ [b]) (installValidated env order b.transactions staged s) := by
  have hNever := hAlone.never b (by simp)
  obtain ⟨-, ⟨sh, hRun⟩, hStages⟩ := validateBlock_eq_ok hAccepted
  obtain ⟨hTraced, hReal⟩ := traced_of_stages hStages hIndex hPool
    fun tx hTx => hNames tx (hPool tx hTx)
  have hEntry := getDomain_installValidated order b.transactions hTraced hReal hInj hd
  refine ⟨mem_purgeIndex_of_mem h.listed, ?_, fun hPurged => ?_⟩
  · rw [hEntry, isSpent_installValidated, Bool.or_eq_true]
    rcases h.kept with hReg | hSpent
    · exact (kept_or_spent_of_stages hNames hInj hIndex hPool hStages hReg hRun
        fun tx hTx hEq => (hNever tx hTx hEq).2).imp id .inr
    · exact .inr (.inl hSpent)
  · suffices hRevoked : Revoked env.E d staged.im by
      obtain ⟨t, ht, hType⟩ := hRevoked
      exact ⟨t, hEntry.trans ht, hType⟩
    obtain ⟨b', hb', hSlot⟩ := hPurged
    rcases List.mem_append.mp hb' with hb' | hb'
    · -- the purge slot has passed
      refine revoked_of_stages hStages ?_ (h.revoked ⟨b', hb', hSlot⟩)
      intro tx hTx hEq hWrites
      obtain ⟨sh₁, sh₂, hValid⟩ := foldlM_mem hRun hTx
      rcases hWrites with hType | hType | hType | hType | hType
      · exact absurd hType (type_ne_register_of_validateTx hValid)
      · exact absurd hType (hNever tx hTx hEq).2
      · exact hType
      · exact absurd hType (hAlone.updates b (by simp) (hSlot ▸ hLater b' hb') tx hTx hEq)
      · exact absurd hType (hNever tx hTx hEq).1
    · -- this is the block of the purge slot
      obtain rfl := List.mem_singleton.mp hb'
      have hListed : reg ∈ s.index.getPurgeableDomains b'.slotNumber := by
        rw [hSlot]
        exact h.listed
      obtain ⟨revoke, hMem, hType, hRevokeName, hRedeems⟩ :=
        exists_revoke_of_purgesMet (purgesMet_of_validateBlock hAccepted) hListed
          fun tx hTx hEq => (hNever tx hTx (hEq.trans hName)).1
      obtain ⟨sh₁, sh₂, hValid⟩ := foldlM_mem hRun hMem
      have hUnspent : s.index.isSpent reg.tid = false :=
        hRedeems ▸ isSpent_of_validateTx hValid (.inr (.inr hType))
      have hReg : s.index.getDomain env.E d = some reg :=
        h.kept.resolve_right (by simp [hUnspent])
      exact revoked_at_purge_slot hNames hInj hIndex hPool hStages hReg hTids hName hRun hSlot
        (hSlot ▸ hExpired) hNever hMem (hRevokeName.trans hName) hType hRedeems

omit hTids hName hExpired in
/-- The registration as it stands in the index. -/
theorem fate_refl {blocks : List Block} (hChain : Chain env blocks s)
    (hPool : ∀ tx ∈ acceptedTxs blocks, pool tx) (hReg : s.index.getDomain env.E d = some reg)
    (hPositive : 0 < reg.expirySlot) : reg.domainName = d ∧ Fate env d reg [] s := by
  have hIndex := (indexFrom_of_chain hChain).mono hPool
  have hTraced : Traced env names pool (.newIndexOverlay s.index) := .newIndexOverlay hIndex
  have hGet : s.index.getDomain env.E d = some reg := hReg
  rw [IndexManager.getDomain_eq] at hGet
  obtain ⟨node, hSearch, rfl⟩ := Option.map_eq_some_iff.mp hGet
  refine ⟨hTraced.domainName_of_getDomain hNames hInj hd hReg, hIndex.listed _ node hSearch hPositive,
    .inl hReg, ?_⟩
  rintro ⟨b, hb, -⟩
  exact absurd hb List.not_mem_nil

end Run

/-- Every run of blocks keeps the fate of a registration. -/
theorem fate_of_continues {env : Env} {names : Set Bytes} {pool : Transaction → Prop} {d : Bytes}
    {reg : Transaction} {blocks after : List Block} {s₁ s : ChainState} {tip : Block}
    (hNames : ∀ tx, pool tx → tx.domainName ∈ names) (hInj : Set.InjOn env.E.sha256 names)
    (hTids : TidsNameDomains fun tx => pool tx ∧ Writes tx) (hd : d ∈ names)
    (hChain : Chain env blocks s₁) (hTip : blocks.getLast? = some tip)
    (hReg : s₁.index.getDomain env.E d = some reg) (hPositive : 0 < reg.expirySlot)
    (hExpired : reg.expirySlot ≤ computePurgeSlot reg.expirySlot env.slotsPerDay)
    (hRun : Continues env s₁ tip after s) (hPool : ∀ tx ∈ acceptedTxs (blocks ++ after), pool tx)
    (hAlone : LeftAlone env d reg after) : Fate env d reg after s := by
  have hBlocks : blocks ≠ [] := by
    rintro rfl
    simp at hTip
  induction hRun with
  | refl =>
    rw [List.append_nil] at hPool
    exact (fate_refl hNames hInj hd hChain hPool hReg hPositive).2
  | @add after s latest b order slotLeader staged run last accepted ih =>
    have hBefore := chain_of_continues hChain hTip run
    rw [← List.append_assoc, acceptedTxs_concat (List.append_ne_nil_of_left_ne_nil hBlocks _)] at hPool
    have hOld : ∀ tx ∈ acceptedTxs (blocks ++ after), pool tx := fun tx hTx =>
      hPool tx (List.mem_append_left _ hTx)
    have hStart : ∀ tx ∈ acceptedTxs blocks, pool tx := by
      intro tx hTx
      refine hOld tx ?_
      unfold acceptedTxs at hTx ⊢
      rw [List.tail_append_of_ne_nil hBlocks, List.flatMap_append]
      exact List.mem_append_left _ hTx
    obtain ⟨hName, -⟩ := fate_refl hNames hInj hd hChain hStart hReg hPositive
    have hFate : Fate env d reg after s := ih hOld
      ⟨fun b hb => hAlone.never b (List.mem_append_left _ hb),
        fun b hb => hAlone.updates b (List.mem_append_left _ hb)⟩
    have hSlot := (checkHeader_eq_ok (validateBlock_eq_ok accepted).1).2.1
    have hLatest := getLast?_append_of_cons hTip last
    refine hFate.step hNames hInj hTids hd hName hExpired ((indexFrom_of_chain hBefore).mono hOld)
      accepted (fun b' hb' => ?_) (fun tx hTx => hPool tx (List.mem_append_right _ hTx)) hAlone
    exact Int64.lt_of_le_of_lt
      (slotNumber_le_of_chain hBefore hLatest b' (List.mem_append_right _ hb')) hSlot

/-- A registration that is never renewed or followed by another is replaced by a REVOKE, if the
chain has a block at its purge slot and no later block updates the domain. -/
theorem purged_by_block_at_purge_slot {env : Env} {names : Set Bytes} {d : Bytes}
    {reg : Transaction} {blocks after : List Block} {s₁ s : ChainState} {tip : Block}
    (hInj : Set.InjOn env.E.sha256 names) (hd : d ∈ names)
    (hNames : ∀ tx ∈ acceptedTxs (blocks ++ after), tx.domainName ∈ names)
    (hTids : TidsNameDomains fun tx => tx ∈ acceptedTxs (blocks ++ after) ∧ Writes tx)
    (hChain : Chain env blocks s₁) (hTip : blocks.getLast? = some tip)
    (hReg : s₁.index.getDomain env.E d = some reg) (hPositive : 0 < reg.expirySlot)
    (hExpired : reg.expirySlot ≤ computePurgeSlot reg.expirySlot env.slotsPerDay)
    (hRun : Continues env s₁ tip after s) (hAlone : LeftAlone env d reg after)
    (hBlock : ∃ b ∈ after, b.slotNumber = computePurgeSlot reg.expirySlot env.slotsPerDay) :
    ∃ t, s.index.getDomain env.E d = some t ∧ t.type = .revoke :=
  (fate_of_continues hNames hInj hTids hd hChain hTip hReg hPositive hExpired hRun
    (fun _ hTx => hTx) hAlone).revoked hBlock

/-- A REVOKE that the slot leader has signed. -/
def signedRevoke : Transaction :=
  Blockchain.StandIn.signAs (utf8 "registry")
    { tid := 3, type := .revoke, redeemsTxID := 2, domainName := utf8 "a.bdns" }

/-- The leader of slot 35 signs the revocation. -/
theorem purged_by_block_at_purge_slot_registry :
    (StandIn.afterLog purgeLog).1.index.getDomain StandIn.registryEnv.E (utf8 "a.bdns") =
        some (StandIn.revealTx 2 1 1 [1] 5) ∧
      ∃ t, (StandIn.registryStep (StandIn.afterLog purgeLog) (35, [signedRevoke])).1.index.getDomain
        StandIn.registryEnv.E (utf8 "a.bdns") = some t ∧ t.type = .revoke := by
  obtain ⟨hReg, hLog, hOk, hTxs, hSlot, hRevoke⟩ :
      (StandIn.afterLog purgeLog).1.index.getDomain StandIn.registryEnv.E (utf8 "a.bdns") =
          some (StandIn.revealTx 2 1 1 [1] 5) ∧
        StandIn.logAccepted (genesisState StandIn.registryEnv, StandIn.registryGenesis) purgeLog =
          true ∧
        (validateBlock StandIn.registryEnv (.ascending _ _) (StandIn.afterLog purgeLog).1
          (StandIn.registryStep (StandIn.afterLog purgeLog) (35, [signedRevoke])).2
          (StandIn.afterLog purgeLog).2 (utf8 "registry")).isOk = true ∧
        acceptedTxs ([StandIn.registryGenesis] ++
          StandIn.logBlocks (genesisState StandIn.registryEnv, StandIn.registryGenesis) purgeLog ++
            [(StandIn.registryStep (StandIn.afterLog purgeLog) (35, [signedRevoke])).2]) =
          [StandIn.commitTx 1 0 [1], StandIn.revealTx 2 1 1 [1] 5, signedRevoke] ∧
        (StandIn.registryStep (StandIn.afterLog purgeLog) (35, [signedRevoke])).2.slotNumber = 35 ∧
        (StandIn.registryStep (StandIn.afterLog purgeLog) (35, [signedRevoke])).2.transactions =
          [signedRevoke] := by
    decide +kernel
  obtain ⟨hChain, hTip⟩ := StandIn.chain_afterLog hLog
  obtain ⟨staged, hAccepted⟩ := exists_eq_ok hOk
  have hRun := Continues.add .refl rfl hAccepted
  rw [← StandIn.accept_eq hAccepted, List.nil_append] at hRun
  have hInj : Set.InjOn StandIn.registryEnv.E.sha256 {d | d ∈ [[], utf8 "a.bdns"]} :=
    Blockchain.StandIn.injOn_of_forall [[], utf8 "a.bdns"] (fun _ h => h) (by decide +kernel)
  have hTids : ∀ t ∈ [StandIn.commitTx 1 0 [1], StandIn.revealTx 2 1 1 [1] 5, signedRevoke],
      ∀ t' ∈ [StandIn.commitTx 1 0 [1], StandIn.revealTx 2 1 1 [1] 5, signedRevoke],
        Writes t → Writes t' → t.tid = t'.tid → t.domainName = t'.domainName := by
    decide +kernel
  refine ⟨hReg, purged_by_block_at_purge_slot hInj (by simp) ?_ ?_ hChain hTip hReg (by decide)
    (by decide +kernel) hRun ⟨?_, ?_⟩ ⟨_, List.mem_singleton_self _, hSlot⟩⟩
  · rw [hTxs]
    decide +kernel
  · rw [hTxs]
    exact fun t t' ht ht' => hTids t ht.1 t' ht'.1 ht.2 ht'.2
  · intro b hb tx hTx _
    rw [List.mem_singleton.mp hb, hRevoke, List.mem_singleton] at hTx
    rw [hTx]
    decide
  · intro b hb _ tx hTx _
    rw [List.mem_singleton.mp hb, hRevoke, List.mem_singleton] at hTx
    rw [hTx]
    decide

/-- The leaders of slots 34 and 36 make blocks, that of slot 35 does not. -/
def gapLog : List (Int64 × List Transaction) :=
  purgeLog ++ [(34, [StandIn.commitTx 3 2 [2]]), (36, [StandIn.commitTx 4 3 [3]])]

/-- The purge slot 35 of the registration has passed, and it still stands. -/
theorem skipped_purge_slot :
    StandIn.logAccepted (genesisState StandIn.registryEnv, StandIn.registryGenesis) gapLog =
        true ∧
      computePurgeSlot (StandIn.revealTx 2 1 1 [1] 5).expirySlot StandIn.registryEnv.slotsPerDay =
        35 ∧
      (StandIn.afterLog gapLog).2.slotNumber = 36 ∧
      (StandIn.afterLog gapLog).1.index.getDomain StandIn.registryEnv.E (utf8 "a.bdns") =
        some (StandIn.revealTx 2 1 1 [1] 5) := by
  decide +kernel

end Bdns.Safety
