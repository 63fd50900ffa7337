import Bdns.Blockchain.DomainGate
import Bdns.Safety.CommitReveal
import Bdns.Safety.Entries

/-!
# Market operations find their domain

LIST, DELIST, BUY and TRANSFER look at the transaction of their domain without a nil check. What
validation asks of them, an owner or a price, is never there without a transaction: not in the
index, where all three are in one node, and not in the shadow maps, where a new owner comes from
a REVEAL. The REVEAL may fail when it is applied, but only because the domain exists.
-/

namespace Bdns.Safety

open Lib Blockchain Network Index Validation

/-- The domain has a transaction. -/
def Found (E : External) (st : DomainState) (d : Bytes) : Prop :=
  (st.im.getDomain E d).isSome = true

/-- Where validation knows an owner or a price, application finds a transaction; and the commits
that validation has not seen used are pending. -/
structure Present (V : Validation) (owner : Bytes → Option Bytes)
    (forSale : Bytes → Option UInt64) (commit : Bytes → Bool) (st : DomainState) : Prop where
  index : ∀ d, (V.im.getOwner d).isSome = true ∨ V.im.isForSale d = true → Found V.E st d
  owner : ∀ d, (owner d).isSome = true → Found V.E st d
  price : ∀ d, (forSale d).isSome = true → Found V.E st d
  commit : ∀ key rec, commit key = false → V.cs.getCommit key = some rec →
    st.cs.getCommit key = some rec

section Present

variable {V : Validation} {sh : DomainShadow} {tx : Transaction} {st st' : DomainState}
  {d : Bytes} {err : Option Bytes}

/-- A domain with an owner of its own is found. -/
theorem Present.of_currentOwner (h : Present V sh.owner sh.forSale sh.commit st) {key : Bytes}
    (hKey : key.length ≠ 0) (hOwner : V.currentOwner sh d = hexEncode key) : Found V.E st d := by
  unfold currentOwner at hOwner
  cases hShadow : sh.owner d with
  | some shadowOwner => exact h.owner d (by rw [hShadow]; rfl)
  | none =>
    rw [hShadow, Option.getD_none] at hOwner
    cases hIndex : V.im.getOwner d with
    | some indexOwner => exact h.index d (.inl (by rw [hIndex]; rfl))
    | none =>
      rw [hIndex] at hOwner
      have hNil : hexEncode ([] : Bytes) = hexEncode key := hOwner
      rw [← hexEncode_injective hNil] at hKey
      exact absurd rfl hKey

/-- A listed domain is found. -/
theorem Present.of_isListed (h : Present V sh.owner sh.forSale sh.commit st)
    (hListed : V.isListed sh d = true) : Found V.E st d := by
  unfold isListed at hListed
  cases hShadow : sh.forSale d with
  | some price => exact h.price d (by rw [hShadow]; rfl)
  | none =>
    rw [hShadow] at hListed
    exact h.index d (.inr hListed)

/-- Nothing that is applied takes a transaction away from a domain. -/
theorem found_of_effect {E : External} {pos : Position}
    (hEffect : DomainEffect E pos tx st st' err) (h : Found E st d) : Found E st' d := by
  unfold Found at *
  obtain hSame | ⟨rfl, hReplaces⟩ := entry_of_effect hEffect d
  · rwa [hSame]
  · obtain ⟨t, hStored, -⟩ := hReplaces.stored
    rw [hStored]
    rfl

/-- A pending commit stays, but for a COMMIT of the same hash and the REVEAL that opens it. -/
theorem getCommit_of_effect {E : External} {pos : Position} {key : Bytes} {rec : CommitRecord}
    (hEffect : DomainEffect E pos tx st st' err) (hPending : st.cs.getCommit key = some rec)
    (hCommit : tx.type = .commit → hexEncode tx.commitHash ≠ key)
    (hReveal : tx.type = .reveal → revealKey E tx ≠ key) :
    st'.cs.getCommit key = some rec := by
  cases hEffect with
  | committed hType =>
    dsimp only
    rw [CommitOverlay.getCommit_addCommit, if_neg fun hSame => hCommit hType hSame.1]
    exact hPending
  | revealed hType =>
    dsimp only
    rw [CommitOverlay.getCommit_consumeCommit, if_neg (hReveal hType)]
    exact hPending
  | _ => exact hPending

/-- After a REVEAL whose commit is pending the domain is found, also if the REVEAL failed. -/
theorem found_of_applyReveal {E : External} {pos : Position} {rec : CommitRecord}
    (hPending : st.cs.getCommit (revealKey E tx) = some rec)
    (h : applyReveal E pos tx st = .ok (st', err)) : Found E st' tx.domainName := by
  unfold applyReveal at h
  dsimp only at h
  rw [hPending] at h
  dsimp only at h
  unfold Found
  cases hPhase : phaseOutside E pos tx st (· == .purged) with
  | some phase =>
    rw [hPhase] at h
    obtain ⟨rfl, -⟩ := Prod.mk.inj (pure_eq_ok.mp h)
    unfold phaseOutside at hPhase
    obtain ⟨existingTx, hExisting, -⟩ := Option.bind_eq_some_iff.mp hPhase
    rw [hExisting]
    rfl
  | none =>
    rw [hPhase] at h
    obtain ⟨rfl, -⟩ := Prod.mk.inj (pure_eq_ok.mp h)
    dsimp only
    rw [IndexOverlay.getDomain_markAsSpent, IndexOverlay.getDomain_setOwner, addDomain,
      IndexOverlay.getDomain_add, if_pos rfl]
    rfl

/-- A market operation that passes its gate finds its domain. -/
theorem found_of_gate (h : Present V sh.owner sh.forSale sh.commit st)
    {owner' : Bytes → Option Bytes} {forSale' : Bytes → Option UInt64} {commit' : Bytes → Bool}
    (hGate : DomainGate V sh tx owner' forSale' commit')
    (hType : tx.type = .list ∨ tx.type = .delist ∨ tx.type = .buy ∨ tx.type = .transfer) :
    Found V.E st tx.domainName := by
  cases hGate with
  | list _ hKey hOwner | delist _ hKey _ hOwner | transfer _ hKey hOwner =>
    exact h.of_currentOwner hKey hOwner
  | buy _ _ hListed => exact h.of_isListed hListed
  | change hOther => rcases hOther with hOther | hOther <;> simp [hOther] at hType
  | other hOther =>
    rcases hOther with hOther | hOther | hOther | hOther | ⟨code, hCode, hOther⟩ <;>
      simp [hOther] at hType
  | commit hOther | reveal hOther | autoRevoke hOther | renew hOther => simp [hOther] at hType

end Present

/-! ## Panics -/

section Panics

variable {E : External} {pos : Position} {tx : Transaction} {st : DomainState} {p : Panic}

theorem keyPrefix_ne_error {pubKeyHex : Bytes} (h : p = .indexOutOfRange → 8 ≤ pubKeyHex.length) :
    keyPrefix pubKeyHex ≠ .error p := by
  unfold keyPrefix
  split
  · rename_i hShort
    intro hThrow
    have hLong := h (Except.error.inj hThrow).symm
    omega
  · nofun

/-- An error whose text shows the start of a key. -/
theorem naming_ne_error {pubKeyHex : Bytes} (h : p = .indexOutOfRange → 8 ≤ pubKeyHex.length)
    (result : Bytes → DomainState × Option Bytes) :
    (do let short ← keyPrefix pubKeyHex; pure (result short) : DomainResult) ≠ .error p :=
  bind_ne_error (keyPrefix_ne_error h) fun _ _ => nofun

theorem debit_ne_error (bl : BalanceLedger) {pubKeyHex : Bytes}
    (h : p = .indexOutOfRange → 8 ≤ pubKeyHex.length) (amount : UInt64) :
    bl.debit pubKeyHex amount ≠ .error p := by
  unfold BalanceLedger.debit
  split
  · exact bind_ne_error (keyPrefix_ne_error h) fun _ _ => nofun
  · nofun

theorem inActivePhase_ne_error (h : p = .nilDereference → Found E st tx.domainName) :
    inActivePhase E pos tx st ≠ .error p := by
  unfold inActivePhase
  split
  · rename_i hNone
    intro hThrow
    have hFound := h (Except.error.inj hThrow).symm
    simp [Found, hNone] at hFound
  · nofun

/-- The messages that show the start of the key or of the commit hash of a transaction find enough
of it. No message shows the key of a revocation by the slot leader. -/
structure Nameable (tx : Transaction) : Prop where
  key : tx.ownerKey.length ≠ 0 ∨ tx.type ≠ .revoke → 8 ≤ (hexEncode tx.ownerKey).length
  hash : tx.type = .commit → 16 ≤ (hexEncode tx.commitHash).length

/-- Only a market operation can look at a missing domain, and only a message can slice too much. -/
theorem applyDomainMutations_ne_error
    (h : p = .nilDereference →
      tx.type = .list ∨ tx.type = .delist ∨ tx.type = .buy ∨ tx.type = .transfer →
        Found E st tx.domainName)
    (hNames : p = .indexOutOfRange → Nameable tx) :
    applyDomainMutations E pos tx st ≠ .error p := by
  have hKey : tx.type ≠ .revoke → p = .indexOutOfRange → 8 ≤ (hexEncode tx.ownerKey).length :=
    fun hType hp => (hNames hp).key (.inr hType)
  unfold applyDomainMutations
  cases hType : tx.type with
  | list =>
    refine bind_ne_error (inActivePhase_ne_error fun hp => h hp (by simp [hType]))
      fun active _ => ?_
    split
    · nofun
    · split
      · nofun
      · split
        · exact naming_ne_error (hKey (by simp [hType])) _
        · nofun
  | delist =>
    refine bind_ne_error (inActivePhase_ne_error fun hp => h hp (by simp [hType]))
      fun active _ => ?_
    split
    · nofun
    · split
      · nofun
      · split
        · nofun
        · split
          · exact naming_ne_error (hKey (by simp [hType])) _
          · nofun
  | transfer =>
    refine bind_ne_error (inActivePhase_ne_error fun hp => h hp (by simp [hType]))
      fun active _ => ?_
    split
    · nofun
    · split
      · nofun
      · split
        · exact naming_ne_error (hKey (by simp [hType])) _
        · nofun
  | buy =>
    refine bind_ne_error (inActivePhase_ne_error fun hp => h hp (by simp [hType]))
      fun active _ => ?_
    split
    · nofun
    · split
      · nofun
      · dsimp only
        split
        · exact naming_ne_error (hKey (by simp [hType])) _
        · split
          · nofun
          · refine bind_ne_error (debit_ne_error _ (hKey (by simp [hType])) _) fun outcome _ => ?_
            cases outcome with
            | error err => exact naming_ne_error (hKey (by simp [hType])) _
            | ok paid => nofun
  | register =>
    change applyRegister E pos tx st ≠ _
    unfold applyRegister
    repeat' split
    all_goals nofun
  | commit =>
    change applyCommit pos tx st ≠ _
    unfold applyCommit
    split
    · rename_i hShort
      intro hThrow
      have hLong := (hNames (Except.error.inj hThrow).symm).hash hType
      omega
    · nofun
  | reveal =>
    change applyReveal E pos tx st ≠ _
    unfold applyReveal
    dsimp only
    repeat' split
    all_goals nofun
  | revoke =>
    change applyRevoke E pos tx st ≠ _
    unfold applyRevoke
    split
    · rename_i hSigned
      exact naming_ne_error (fun hp => (hNames hp).key (.inl (by omega))) _
    · repeat' split
      all_goals nofun
  | update =>
    change applyUpdate E pos tx st ≠ _
    unfold applyUpdate applyUpdateOrRenew
    split
    · exact naming_ne_error (hKey (by simp [hType])) _
    · repeat' split
      all_goals nofun
  | renew =>
    change applyRenew E pos tx st ≠ _
    unfold applyRenew applyUpdateOrRenew
    repeat' split
    all_goals nofun
  | fund | stake | unstake | equivocationProof | other => nofun

end Panics

/-! ## What the gates add to the shadow maps -/

section Gates

variable {V : Validation} {sh : DomainShadow} {tx : Transaction} {owner' : Bytes → Option Bytes}
  {forSale' : Bytes → Option UInt64} {commit' : Bytes → Bool}

theorem isSome_update {α : Type} {m : Bytes → Option α} {d d' : Bytes} {a : α}
    (h : (Function.update m d (some a) d').isSome = true) : (m d').isSome = true ∨ d = d' := by
  by_cases hd : d' = d
  · exact .inr hd.symm
  · rw [Function.update_of_ne hd] at h
    exact .inl h

/-- Owners come from REVEAL, BUY and TRANSFER. -/
theorem owner_of_gate (hGate : DomainGate V sh tx owner' forSale' commit') {d : Bytes}
    (h : (owner' d).isSome = true) :
    (sh.owner d).isSome = true ∨
      tx.domainName = d ∧ (tx.type = .reveal ∨ tx.type = .buy ∨ tx.type = .transfer) := by
  cases hGate with
  | reveal hType => exact (isSome_update h).imp_right fun hd => ⟨hd, .inl hType⟩
  | buy hType => exact (isSome_update h).imp_right fun hd => ⟨hd, .inr (.inl hType)⟩
  | transfer hType => exact (isSome_update h).imp_right fun hd => ⟨hd, .inr (.inr hType)⟩
  | _ => exact .inl h

/-- Prices come from the market operations. -/
theorem price_of_gate (hGate : DomainGate V sh tx owner' forSale' commit') {d : Bytes}
    (h : (forSale' d).isSome = true) :
    (sh.forSale d).isSome = true ∨ tx.domainName = d ∧
      (tx.type = .list ∨ tx.type = .delist ∨ tx.type = .buy ∨ tx.type = .transfer) := by
  cases hGate with
  | list hType => exact (isSome_update h).imp_right fun hd => ⟨hd, .inl hType⟩
  | delist hType => exact (isSome_update h).imp_right fun hd => ⟨hd, .inr (.inl hType)⟩
  | buy hType => exact (isSome_update h).imp_right fun hd => ⟨hd, .inr (.inr (.inl hType))⟩
  | transfer hType => exact (isSome_update h).imp_right fun hd => ⟨hd, .inr (.inr (.inr hType))⟩
  | _ => exact .inl h

/-- A commit that is still unused was unused before, and is neither a new one nor one that the
transaction opens. -/
theorem unused_of_gate (hGate : DomainGate V sh tx owner' forSale' commit') {key : Bytes}
    (h : commit' key = false) :
    sh.commit key = false ∧ (tx.type = .commit → hexEncode tx.commitHash ≠ key) ∧
      (tx.type = .reveal → revealKey V.E tx ≠ key) := by
  cases hGate with
  | commit hType =>
    by_cases hd : key = hexEncode tx.commitHash
    · simp [hd] at h
    · rw [Function.update_of_ne hd] at h
      exact ⟨h, fun _ => Ne.symm hd, by simp [hType]⟩
  | reveal hType =>
    by_cases hd : key = revealKey V.E tx
    · simp [hd] at h
    · rw [Function.update_of_ne hd] at h
      exact ⟨h, by simp [hType], fun _ => Ne.symm hd⟩
  | change hType => rcases hType with hType | hType <;> exact ⟨h, by simp [hType], by simp [hType]⟩
  | other hType =>
    rcases hType with hType | hType | hType | hType | ⟨code, hCode, hType⟩ <;>
      exact ⟨h, by simp [hType], by simp [hType]⟩
  | autoRevoke hType | renew hType | list hType | delist hType | buy hType | transfer hType =>
    exact ⟨h, by simp [hType], by simp [hType]⟩

/-- A REVEAL that passes its gate opens an unused commit. -/
theorem opens_of_gate (hGate : DomainGate V sh tx owner' forSale' commit')
    (hType : tx.type = .reveal) :
    ∃ rec, Opens V tx rec ∧ sh.commit (revealKey V.E tx) = false := by
  cases hGate with
  | reveal _ rec hOpens hFresh => exact ⟨rec, hOpens, hFresh⟩
  | change hOther => rcases hOther with hOther | hOther <;> simp [hOther] at hType
  | other hOther =>
    rcases hOther with hOther | hOther | hOther | hOther | ⟨code, hCode, hOther⟩ <;>
      simp [hOther] at hType
  | commit hOther | autoRevoke hOther | renew hOther | list hOther | delist hOther | buy hOther
  | transfer hOther => simp [hOther] at hType

end Gates

/-! ## A list of transactions -/

/-- The environment in which an accepted list is applied. -/
def listEnv (V : Validation) : Env := ⟨V.E, V.trustedRegistries, V.slotsPerDay⟩

section Lists

variable {V : Validation} {index : IndexManager} {order : JournalOrder} {blockIndex : Int64}
  {range : List (Bytes × OverlayEntry) → List (Bytes × OverlayEntry)} {ledger : BalanceLedger}

theorem present_init (hIm : V.im = (IndexOverlay.newIndexOverlay index).indexer V.E range) :
    Present V (fun _ => none) (fun _ => none) (fun _ => false)
      ⟨ledger, .newIndexOverlay index, V.cs⟩ where
  index d h := by
    rw [hIm] at h
    change (index.getOwner V.E d).isSome = true ∨ index.isForSale V.E d = true at h
    change (index.getDomain V.E d).isSome = true
    unfold IndexManager.getOwner IndexManager.isForSale at h
    rw [IndexManager.getDomain_eq]
    cases hSearch : index.tree.search (hashDomain V.E d) with
    | none => simp [hSearch] at h
    | some node => rfl
  owner d h := absurd h (by simp)
  price d h := absurd h (by simp)
  commit _ _ _ hPending := hPending

/-- One transaction. -/
theorem present_step {pos : Position} {tx : Transaction} {st st' : DomainState}
    {err : Option Bytes} {sh sh' : Shadow}
    (h : Present V sh.domains.owner sh.domains.forSale sh.domains.commit st)
    (hTx : V.validateTx sh tx = .ok sh')
    (hApply : applyDomainMutations V.E pos tx st = .ok (st', err)) :
    Present V sh'.domains.owner sh'.domains.forSale sh'.domains.commit st' := by
  have hEffect := applyDomainMutations_eq_ok hApply
  have hGate := domainGate_of_validateTx hTx
  have hKept : ∀ d, Found V.E st d → Found V.E st' d := fun d => found_of_effect hEffect
  refine ⟨fun d hd => hKept d (h.index d hd), fun d hd => ?_, fun d hd => ?_,
    fun key rec hUnused hPending => ?_⟩
  · rcases owner_of_gate hGate hd with hOld | ⟨rfl, hReveal | hMarket⟩
    · exact hKept d (h.owner d hOld)
    · obtain ⟨rec, hOpens, hFresh⟩ := opens_of_gate hGate hReveal
      unfold applyDomainMutations at hApply
      rw [hReveal] at hApply
      exact found_of_applyReveal (h.commit _ rec hFresh hOpens.pending) hApply
    · exact hKept _ (found_of_gate h hGate (.inr (.inr hMarket)))
  · rcases price_of_gate hGate hd with hOld | ⟨rfl, hMarket⟩
    · exact hKept d (h.price d hOld)
    · exact hKept _ (found_of_gate h hGate hMarket)
  · obtain ⟨hBefore, hCommit, hReveal⟩ := unused_of_gate hGate hUnused
    exact getCommit_of_effect hEffect (h.commit key rec hBefore hPending) hCommit hReveal

/-- Validation and application of a list, side by side. -/
theorem present_of_domainPass {txs : List Transaction} {sh : Shadow} {st : DomainState}
    (hIm : V.im = (IndexOverlay.newIndexOverlay index).indexer V.E range)
    (hRun : V.run txs = .ok sh)
    (hPass : domainPass (listEnv V) order V.currentSlot blockIndex txs
      ⟨ledger, .newIndexOverlay index, V.cs⟩ = .ok st) :
    Present V sh.domains.owner sh.domains.forSale sh.domains.commit st := by
  induction txs using List.reverseRecOn generalizing sh st with
  | nil =>
    obtain rfl := pure_eq_ok.mp hRun
    obtain rfl := pure_eq_ok.mp hPass
    exact present_init hIm
  | append_singleton txs tx ih =>
    obtain ⟨sh₁, hBefore, hTx⟩ := run_concat.mp hRun
    obtain ⟨st₁, st', err, hBefore', hApply, hPass'⟩ := domainPass_split rfl hPass
    obtain rfl : st' = st := Except.ok.inj (hPass'.symm.trans hPass)
    exact present_step (ih hBefore hBefore') hTx hApply

/-- Every market operation of an accepted list finds the transaction of its domain when its turn
comes, whatever the operations before it did. -/
theorem market_ops_find_domain {txs before after : List Transaction} {tx : Transaction}
    {st : DomainState} (hIm : V.im = (IndexOverlay.newIndexOverlay index).indexer V.E range)
    (hAccepted : V.validateTransactions txs = .ok true) (hSplit : txs = before ++ tx :: after)
    (hPass : domainPass (listEnv V) order V.currentSlot blockIndex before
      ⟨ledger, .newIndexOverlay index, V.cs⟩ = .ok st)
    (hType : tx.type = .list ∨ tx.type = .delist ∨ tx.type = .buy ∨ tx.type = .transfer) :
    st.im.getDomain V.E tx.domainName ≠ none ∧
      applyDomainMutations V.E ((listEnv V).position order V.currentSlot blockIndex before.length)
        tx st ≠ .error .nilDereference := by
  obtain ⟨sh, hRun⟩ := validateTransactions_eq_true.mp hAccepted
  obtain ⟨sh₁, sh₂, hBefore, hTx⟩ := run_split hRun hSplit
  have hFound : Found V.E st tx.domainName :=
    found_of_gate (present_of_domainPass hIm hBefore hPass) (domainGate_of_validateTx hTx) hType
  refine ⟨Option.isSome_iff_ne_none.mp hFound, ?_⟩
  exact applyDomainMutations_ne_error (fun _ _ => hFound) fun hp => absurd hp (by decide)

end Lists

namespace StandIn

open Network.StandIn

/-- The domain is offered in the block that registers it. -/
def offerTxs : List Transaction :=
  [revealTx 2 1 1 [1] 1000,
    registryTx { tid := 3, type := .list, nonce := 2, domainName := utf8 "a.bdns", listPrice := 5 }]

def offerBlock : Block :=
  { index := 2, slotNumber := 4, slotLeader := utf8 "registry", transactions := offerTxs
    prevHash := [] }

def offerState : ChainState := (afterLog [(1, [commitTx 1 0 [1]])]).1

def offerValidation : Validation := blockValidation registryEnv offerState offerBlock

end StandIn

open Network.StandIn StandIn in
theorem market_ops_find_domain_offer :
    offerValidation.validateTransactions offerTxs = .ok true ∧
      ∃ st, domainPass (listEnv offerValidation) (.ascending _ _) 4 2 (offerTxs.take 1)
          ⟨{}, .newIndexOverlay offerState.index, offerValidation.cs⟩ = .ok st ∧
        st.im.getDomain registryEnv.E (utf8 "a.bdns") ≠ none := by
  have hAccepted : offerValidation.validateTransactions offerTxs = .ok true := by decide +kernel
  have hOk : (domainPass (listEnv offerValidation) (.ascending _ _) 4 2 (offerTxs.take 1)
      ⟨{}, .newIndexOverlay offerState.index, offerValidation.cs⟩).isOk = true := by
    decide +kernel
  obtain ⟨st, hPass⟩ := exists_eq_ok hOk
  refine ⟨hAccepted, st, hPass, ?_⟩
  exact (market_ops_find_domain rfl hAccepted rfl hPass (.inl rfl)).1

section Block

variable {env : Env} {order : JournalOrder} {s : ChainState} {b : Block}

/-- Application of an accepted list whose messages have enough to show never panics: it looks at no
missing domain, also where earlier operations of the list have failed. -/
theorem domainPass_ne_error {txs : List Transaction} {sh : Shadow} {p : Panic}
    (hRun : (blockValidation env s b).run txs = .ok sh)
    (hNames : p = .indexOutOfRange → ∀ tx ∈ txs, Nameable tx) (ledger : BalanceLedger) :
    domainPass env order b.slotNumber b.index txs
      ⟨ledger, .newIndexOverlay s.index, openCommits s.commitStore b.index⟩ ≠ .error p := by
  induction txs using List.reverseRecOn generalizing sh with
  | nil => nofun
  | append_singleton txs tx ih =>
    obtain ⟨sh₁, hBefore, hTx⟩ := run_concat.mp hRun
    have hEarlier : p = .indexOutOfRange → ∀ other ∈ txs, Nameable other :=
      fun hp other hMem => hNames hp other (List.mem_append_left _ hMem)
    rw [domainPass_append_singleton]
    refine bind_ne_error (ih hBefore hEarlier) fun st hPass => ?_
    refine bind_ne_error (applyDomainMutations_ne_error (fun _ hMarket => ?_)
      fun hp => hNames hp tx (by simp)) fun _ _ => nofun
    have hPresent := present_of_domainPass (V := blockValidation env s b) rfl hBefore hPass
    exact found_of_gate hPresent (domainGate_of_validateTx hTx) hMarket

theorem domainPass_ne_nilDereference {txs : List Transaction} {sh : Shadow}
    (hRun : (blockValidation env s b).run txs = .ok sh) (ledger : BalanceLedger) :
    domainPass env order b.slotNumber b.index txs
      ⟨ledger, .newIndexOverlay s.index, openCommits s.commitStore b.index⟩ ≠
        .error .nilDereference :=
  domainPass_ne_error (p := .nilDereference) hRun (fun hp => absurd hp (by decide)) ledger

end Block

end Bdns.Safety
