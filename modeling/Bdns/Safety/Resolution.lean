import Bdns.Network.Resolver
import Bdns.Safety.History

/-!
# Revoked domains

A REVOKE is stored like any other write: with the expiry slot and the records that its sender chose.
So a revoked domain stops resolving only if that transaction is expired or has no records, and the
same goes for an UPDATE that its owner, who stays the owner, may send while it is not expired.
-/

namespace Bdns.Safety

open Lib Blockchain Network Index

section Stored

variable {env : Env} {names : Set Bytes} {prior log l₁ l₂ : List Effect} {e r : Effect} {d : Bytes}

/-- REVOKE and UPDATE are stored as they are. -/
theorem stored_of_effect {E : External} {pos : Position} {tx : Transaction} {st st' : DomainState}
    (hEffect : DomainEffect E pos tx st st' none)
    (hType : tx.type = .revoke ∨ tx.type = .update) :
    st'.im.getDomain E tx.domainName = some tx := by
  cases hEffect with
  | revoked => rw [getDomain_revokeDomain, if_pos rfl]
  | updated =>
    rw [getDomain_replaceDomain, if_pos rfl]
    rfl
  | skipped hOther =>
    rcases hOther with h | h | h | h | ⟨_, _, h⟩ <;> simp [h] at hType
  | registered h | committed h | revealed h | renewed h | listed h | delisted h | bought h
  | transferred h => simp [h] at hType

/-- No write of the domain but REVOKE and UPDATE. -/
def OnlyRevoked (d : Bytes) (events : List Effect) : Prop :=
  ∀ e ∈ events, e.tx.domainName = d → e.tx.type ≠ .renew ∧ e.tx.type ≠ .reveal

/-- After a REVOKE, the entry of the domain is a REVOKE or an UPDATE from then on. -/
theorem last_write_of_revoked (hRecorded : Along (Recorded env names) log)
    (hSplit : log = l₁ ++ r :: l₂) (hRevoke : r.tx.type = .revoke)
    (hLater : OnlyRevoked r.tx.domainName l₂) :
    ∃ w, (writesOf r.tx.domainName log).getLast? = some w ∧ w ∈ r :: l₂ ∧
      (w.tx.type = .revoke ∨ w.tx.type = .update) ∧ w.tx.domainName = r.tx.domainName ∧
      w.after.im.getDomain env.E r.tx.domainName = some w.tx := by
  obtain ⟨w, hMem, hLast⟩ :=
    @exists_last_from Writes _ _ r l₁ l₂ ⟨.inr (.inr (.inl hRevoke)), rfl⟩
  rw [← hSplit] at hLast
  obtain ⟨hIn, hOwn, hName⟩ := mem_effectsOf.mp (List.mem_of_getLast? hLast)
  obtain ⟨prior, after, hAt⟩ := List.append_of_mem hIn
  have hRec := hRecorded prior w after hAt
  have hType : w.tx.type = .revoke ∨ w.tx.type = .update := by
    rcases List.mem_cons.mp hMem with rfl | hNew
    · exact .inl hRevoke
    · obtain ⟨hRenew, hReveal⟩ := hLater w hNew hName
      rcases hOwn with h | h | h | h | h
      · exact absurd h hRec.notRegister
      · exact absurd h hReveal
      · exact .inl h
      · exact .inr h
      · exact absurd h hRenew
  obtain ⟨order, i, hEffect⟩ := hRec.effect
  exact ⟨w, hLast, hMem, hType, hName, hName ▸ stored_of_effect hEffect hType⟩

/-- A REVOKE and what is later sent for the domain keep it expired, if every REVOKE does: an UPDATE
takes effect only while the domain is active. -/
theorem expired_of_revoked (hRecorded : Along (Recorded env names) log)
    (hSlots : Along (fun prior e => ∀ u ∈ prior, u.block.slotNumber ≤ e.block.slotNumber) log)
    (hSplit : log = l₁ ++ r :: l₂) (hRevoke : r.tx.type = .revoke)
    (hLater : OnlyRevoked r.tx.domainName l₂)
    (hExpired : ∀ e ∈ r :: l₂, e.tx.domainName = r.tx.domainName → e.tx.type = .revoke →
      e.tx.expirySlot ≤ r.block.slotNumber) :
    ∀ w, (writesOf r.tx.domainName log).getLast? = some w →
      w.tx.expirySlot ≤ r.block.slotNumber := by
  induction l₂ using List.reverseRecOn generalizing log with
  | nil =>
    intro w hw
    obtain ⟨w', hw', hMem, -⟩ := last_write_of_revoked hRecorded hSplit hRevoke hLater
    obtain rfl := Option.some.inj (hw.symm.trans hw')
    obtain rfl := List.mem_singleton.mp hMem
    exact hExpired w List.mem_cons_self rfl hRevoke
  | append_singleton l₂ e ih =>
    rw [← List.cons_append, ← List.append_assoc] at hSplit
    subst hSplit
    obtain ⟨hOld, hNew⟩ := along_concat.mp hRecorded
    obtain ⟨hOldSlots, hSlot⟩ := along_concat.mp hSlots
    have hBefore : OnlyRevoked r.tx.domainName l₂ :=
      fun u hu => hLater u (List.mem_append_left _ hu)
    have hLast := ih hOld hOldSlots rfl hBefore fun u hu =>
      hExpired u (by rw [← List.cons_append]; exact List.mem_append_left _ hu)
    intro w hw
    rw [writesOf_concat] at hw
    by_cases hWrite : Writes e.tx ∧ e.tx.domainName = r.tx.domainName
    swap
    · rw [if_neg hWrite, List.append_nil] at hw
      exact hLast w hw
    rw [if_pos hWrite, List.getLast?_concat] at hw
    obtain rfl := Option.some.inj hw
    obtain ⟨hWrites, hName⟩ := hWrite
    obtain ⟨hRenew, hReveal⟩ := hLater e (by simp) hName
    by_cases hType : e.tx.type = .revoke
    · exact hExpired e (by simp) hName hType
    -- the entry that an UPDATE finds is expired, so it does not take effect
    obtain ⟨order, i, hEffect⟩ := hNew.effect
    obtain ⟨u, hu, -, -, -, hEntry⟩ := last_write_of_revoked hOld rfl hRevoke hBefore
    have hFound : e.before.im.getDomain env.E e.tx.domainName = some u.tx := by
      rw [hNew.standing _ hNew.name, hName, hu]
      exact hEntry
    exfalso
    generalize e.after = st' at hEffect
    cases hEffect with
    | updated hUpdate hOwner hActive =>
      have hBelow : e.block.slotNumber < u.tx.expirySlot :=
        getDomainPhase_eq_active.mp (phase_of_phaseOutside hActive _ hFound)
      have hAbove : r.block.slotNumber ≤ e.block.slotNumber := hSlot r (by simp)
      exact Int64.lt_irrefl (Int64.lt_of_lt_of_le hBelow (Int64.le_trans (hLast u hu) hAbove))
    | skipped hOther =>
      rcases hOther with h | h | h | h | ⟨_, _, h⟩ <;> simp [Writes, h] at hWrites
    | committed h | listed h | delisted h | bought h | transferred h =>
      simp [Writes, h] at hWrites
    | registered h => exact hNew.notRegister h
    | revealed h => exact hReveal h
    | revoked h => exact hType h
    | renewed h => exact hRenew h

end Stored

/-- From the slot on, a full node without a cached answer finds nothing for the domain. -/
def StopsResolving (env : Env) (im : IndexManager) (domain : Bytes) (start : Int64) : Prop :=
  ∀ queryType slot now cache waited, start ≤ slot → cache (domain, queryType) = none →
    ∃ text, (resolveDomain env.E im slot env.slotsPerDay true domain queryType now cache waited).2 =
      .error text

/-- What a full node answers for an indexed transaction from a slot on. -/
theorem stopsResolving_iff {env : Env} {im : IndexManager} {domain : Bytes} {tx : Transaction}
    (hEntry : im.getDomain env.E domain = some tx) (start : Int64) :
    StopsResolving env im domain start ↔ tx.expirySlot ≤ start ∨ tx.records = [] := by
  constructor
  · intro hStops
    by_contra! hNot
    obtain ⟨hActive, hRecords⟩ := hNot
    obtain ⟨queryType, records, hFound⟩ := resolveLocally_eq_ok hEntry
      (getDomainPhase_eq_active.mpr (Int64.not_le.mp hActive)) hRecords 0 fun _ => none
    obtain ⟨text, hError⟩ := hStops queryType start 0 (fun _ => none) (0, fun _ => none)
      (Int64.le_refl _) rfl
    rw [resolveDomain_cold rfl, hFound] at hError
    cases hError
  · intro h queryType slot now cache waited hSlot hCold
    rw [resolveDomain_cold hCold]
    refine resolveLocally_eq_error hEntry (h.imp_left fun hExpired hActive => ?_) _ _ _
    have hBelow := getDomainPhase_eq_active.mp hActive
    exact Int64.lt_irrefl (Int64.lt_of_lt_of_le hBelow (Int64.le_trans hExpired hSlot))

/-- **When a revoked domain stops resolving.** After a REVOKE, with no later RENEW or REVEAL of the
domain, the last REVOKE or UPDATE of it is indexed. The domain stops resolving from the slot of the
REVOKE on if and only if that transaction is expired by then or has no records. It does if no
REVOKE of the domain gives a later expiry slot. -/
theorem revoked_stops_resolving_iff {env : Env} {names : Set Bytes} {blocks : List Block}
    {s : ChainState} {log l₁ l₂ : List Effect} {r : Effect} (hLog : EffectLog env blocks s log)
    (hInj : Set.InjOn env.E.sha256 names)
    (hNames : ∀ b ∈ blocks, ∀ tx ∈ b.transactions, tx.domainName ∈ names)
    (hSplit : log = l₁ ++ r :: l₂) (hRevoke : r.tx.type = .revoke)
    (hLater : OnlyRevoked r.tx.domainName l₂) :
    (∃ w, (writesOf r.tx.domainName log).getLast? = some w ∧
      (w.tx.type = .revoke ∨ w.tx.type = .update) ∧
      (StopsResolving env s.index r.tx.domainName r.block.slotNumber ↔
        w.tx.expirySlot ≤ r.block.slotNumber ∨ w.tx.records = [])) ∧
    ((∀ e ∈ r :: l₂, e.tx.domainName = r.tx.domainName → e.tx.type = .revoke →
      e.tx.expirySlot ≤ r.block.slotNumber) →
      StopsResolving env s.index r.tx.domainName r.block.slotNumber) := by
  obtain ⟨hRecorded, hStanding⟩ := recorded_of_effectLog hLog hInj hNames
  obtain ⟨w, hLast, -, hType, -, hAfter⟩ :=
    last_write_of_revoked hRecorded hSplit hRevoke hLater
  have hName : r.tx.domainName ∈ names :=
    (hRecorded l₁ r l₂ hSplit).name
  have hEntry : s.index.getDomain env.E r.tx.domainName = some w.tx := by
    have h := hStanding _ hName
    rw [hLast, Option.bind_some, hAfter] at h
    exact h
  have hIff := stopsResolving_iff hEntry r.block.slotNumber
  refine ⟨⟨w, hLast, hType, hIff⟩, fun hExpired => hIff.mpr (.inl ?_)⟩
  exact expired_of_revoked hRecorded (slots_of_effectLog hLog).2 hSplit hRevoke hLater hExpired w hLast

namespace StandIn

open Network.StandIn

/-- The domain is registered and revoked, with the expiry slot and the records of the REVOKE. -/
def ownRevokeLog (expirySlot : Int64) (records : List Record) : List (Int64 × List Transaction) :=
  [(1, [commitTx 1 0 [1]]), (4, [revealTx 2 1 1 [1] 1000]),
    (5, [registryTx { revokeTx 3 2 2 with expirySlot, records }])]

end StandIn

open Network.StandIn StandIn in
theorem revoked_stops_resolving_iff_expired :
    StopsResolving registryEnv (afterLog (ownRevokeLog 0 [⟨utf8 "A", utf8 "10.0.0.1", 0⟩])).1.index
      (utf8 "a.bdns") 5 := by
  obtain ⟨hEffects, hAccepted, hNames⟩ :
      (logEffects 1 (genesisState registryEnv, registryGenesis)
          (ownRevokeLog 0 [⟨utf8 "A", utf8 "10.0.0.1", 0⟩])).toOption.any (fun log =>
            log.getLast?.any fun e => decide (e.tx.type = .revoke) &&
              decide (e.tx.domainName = utf8 "a.bdns") && decide (e.tx.expirySlot = 0) &&
              decide (e.block.slotNumber = 5)) = true ∧
        logAccepted (genesisState registryEnv, registryGenesis)
          (ownRevokeLog 0 [⟨utf8 "A", utf8 "10.0.0.1", 0⟩]) = true ∧
        ∀ b ∈ [registryGenesis] ++ logBlocks (genesisState registryEnv, registryGenesis)
            (ownRevokeLog 0 [⟨utf8 "A", utf8 "10.0.0.1", 0⟩]),
          ∀ tx ∈ b.transactions, tx.domainName ∈ {d | d ∈ [[], utf8 "a.bdns"]} := by
    decide +kernel
  obtain ⟨log, hLog, hSome⟩ := exists_of_any hEffects
  obtain ⟨r, hLast, hAll⟩ := (Option.any_eq_true _ _).mp hSome
  simp only [Bool.and_eq_true, decide_eq_true_eq] at hAll
  obtain ⟨⟨⟨hRevoke, hName⟩, hExpiry⟩, hSlot⟩ := hAll
  obtain ⟨l₁, rfl⟩ := List.getLast?_eq_some_iff.mp hLast
  have hHistory := effectLog_afterLog hAccepted hLog
  have hStops := (revoked_stops_resolving_iff hHistory injOn_domain hNames rfl hRevoke
    (by simp [OnlyRevoked])).2 (by simp [hExpiry, hSlot])
  rw [hName, hSlot] at hStops
  exact hStops

open Network.StandIn StandIn in
/-- A REVOKE with records and a late expiry slot takes effect, and the domain still resolves. -/
theorem revoked_domain_resolves :
    ∃ log r, EffectLog registryEnv ([registryGenesis] ++
        logBlocks (genesisState registryEnv, registryGenesis)
          (ownRevokeLog 1000 [⟨utf8 "A", utf8 "10.0.0.1", 0⟩]))
        (afterLog (ownRevokeLog 1000 [⟨utf8 "A", utf8 "10.0.0.1", 0⟩])).1 log ∧
      log.getLast? = some r ∧ r.tx.type = .revoke ∧ r.block.slotNumber = 5 ∧
      (resolveDomain registryEnv.E
        (afterLog (ownRevokeLog 1000 [⟨utf8 "A", utf8 "10.0.0.1", 0⟩])).1.index 6
        registryEnv.slotsPerDay true (utf8 "a.bdns") (utf8 "A") 0 (fun _ => none)
        (0, fun _ => none)).2 = .ok [⟨utf8 "A", utf8 "10.0.0.1", 0⟩] := by
  obtain ⟨hEffects, hAccepted, hServed⟩ :
      (logEffects 1 (genesisState registryEnv, registryGenesis)
          (ownRevokeLog 1000 [⟨utf8 "A", utf8 "10.0.0.1", 0⟩])).toOption.any (fun log =>
            log.getLast?.any fun e => decide (e.tx.type = .revoke) &&
              decide (e.block.slotNumber = 5)) = true ∧
        logAccepted (genesisState registryEnv, registryGenesis)
          (ownRevokeLog 1000 [⟨utf8 "A", utf8 "10.0.0.1", 0⟩]) = true ∧
        (resolveDomain registryEnv.E
          (afterLog (ownRevokeLog 1000 [⟨utf8 "A", utf8 "10.0.0.1", 0⟩])).1.index 6
          registryEnv.slotsPerDay true (utf8 "a.bdns") (utf8 "A") 0 (fun _ => none)
          (0, fun _ => none)).2 = .ok [⟨utf8 "A", utf8 "10.0.0.1", 0⟩] := by
    decide +kernel
  obtain ⟨log, hLog, hSome⟩ := exists_of_any hEffects
  obtain ⟨r, hLast, hBoth⟩ := (Option.any_eq_true _ _).mp hSome
  obtain ⟨hType, hSlot⟩ := Bool.and_eq_true_iff.mp hBoth
  exact ⟨log, r, effectLog_afterLog hAccepted hLog, hLast, of_decide_eq_true hType,
    of_decide_eq_true hSlot, hServed⟩

end Bdns.Safety
