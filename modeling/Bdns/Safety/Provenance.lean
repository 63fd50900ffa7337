import Bdns.Safety.History

/-!
# Provenance

UPDATE, RENEW and REVOKE redeem a transaction of their domain by its number. The number is looked
up in the journal of the block and then in the index under it, where the entry from before the
block is still found. After a REVEAL in the same block this entry is no longer that of the domain,
and nothing has spent it: this is the only way in which a transaction that takes effect can redeem
anything but the current entry. Without it the writes of a domain form lines that start with a
REVEAL, in which each transaction redeems the one before it.
-/

namespace Bdns.Safety

open Lib Blockchain Network Index

/-- The transactions that redeem the entry of their domain. -/
def Redeeming (tx : Transaction) : Prop :=
  tx.type = .update ∨ tx.type = .renew ∨ tx.type = .revoke

instance (tx : Transaction) : Decidable (Redeeming tx) := by
  unfold Redeeming
  infer_instance

theorem Redeeming.writes {tx : Transaction} (h : Redeeming tx) : Writes tx := by
  rcases h with hType | hType | hType
  · exact .inr (.inr (.inr (.inl hType)))
  · exact .inr (.inr (.inr (.inr hType)))
  · exact .inr (.inr (.inl hType))

theorem reveal_or_redeeming {tx : Transaction} (hWrites : Writes tx) (hType : tx.type ≠ .register) :
    tx.type = .reveal ∨ Redeeming tx := by
  rcases hWrites with h | h | h | h | h
  · exact absurd h hType
  · exact .inl h
  · exact .inr (.inr (.inr h))
  · exact .inr (.inl h)
  · exact .inr (.inr (.inl h))

/-- The redeemed number is that of the entry of the domain. -/
def Effect.RedeemsEntry (E : External) (e : Effect) : Prop :=
  ∃ entry, e.before.im.getDomain E e.tx.domainName = some entry ∧ entry.tid = e.tx.redeemsTxID

/-- The redeemed number is that of the entry before the block, which a REVEAL has replaced. -/
structure Effect.Stale (E : External) (prior : List Effect) (e : Effect) : Prop where
  redeeming : Redeeming e.tx
  signed : e.tx.ownerKey ≠ []
  revealed : ∃ r ∈ prior, r.height = e.height ∧ r.tx.type = .reveal ∧
    r.tx.domainName = e.tx.domainName
  old : ∃ entry, e.before.im.real.getDomain E e.tx.domainName = some entry ∧
    entry.tid = e.tx.redeemsTxID
  other : ¬ e.RedeemsEntry E

/-- How the entry of a domain may differ from the one before the block. -/
inductive Departs (E : External) (height : Nat) (log : List Effect) (o : IndexOverlay) (d : Bytes) :
    Prop
  | kept (same : o.getDomain E d = o.real.getDomain E d)
  | revealed (e : Effect) (mem : e ∈ log) (here : e.height = height) (type : e.tx.type = .reveal)
      (name : e.tx.domainName = d)
  | redeemed (entry : Transaction) (old : o.real.getDomain E d = some entry) (e : Effect)
      (mem : e ∈ log) (here : e.height = height) (redeeming : Redeeming e.tx)
      (number : e.tx.redeemsTxID = entry.tid)

/-- What holds along a history. -/
structure Accountable (E : External) (names : Set Bytes) (height : Nat) (log : List Effect)
    (o : IndexOverlay) : Prop where
  departs : ∀ d ∈ names, Departs E height log o d
  spent : ∀ e ∈ log, Redeeming e.tx → o.isSpent e.tx.redeemsTxID = true
  spentBefore : ∀ e ∈ log, Redeeming e.tx → e.height ≠ height →
    o.real.isSpent e.tx.redeemsTxID = true
  redeems : Along (fun prior e => Redeeming e.tx → e.RedeemsEntry E ∨ e.Stale E prior) log
  once : Along (fun prior e => Redeeming e.tx → ∀ u ∈ prior, Redeeming u.tx →
    u.tx.redeemsTxID ≠ e.tx.redeemsTxID) log

section Step

variable {env : Env} {names : Set Bytes} {blocks : List Block} {s : ChainState} {b : Block}
  {before : List Transaction} {tx : Transaction} {st st' : DomainState} {log : List Effect}
  {order : JournalOrder}

theorem Departs.mono {E : External} {height : Nat} {o o' : IndexOverlay} {d : Bytes}
    (h : Departs E height log o d) (e : Effect) (hReal : o'.real = o.real)
    (hSame : o'.getDomain E d = o.getDomain E d) : Departs E height (log ++ [e]) o' d := by
  cases h with
  | kept same => exact .kept (by rw [hSame, hReal, same])
  | revealed r mem here type name => exact .revealed r (List.mem_append_left _ mem) here type name
  | redeemed entry old u mem here redeeming number =>
    exact .redeemed entry (hReal ▸ old) u (List.mem_append_left _ mem) here redeeming number

/-- What a transaction that takes effect has redeemed: the entry in the overlay, or the one in the
index under it. -/
theorem Site.redeemed (hSite : Site env names blocks s b before tx st log)
    (hInj : Set.InjOn env.E.sha256 names) (hRedeeming : Redeeming tx)
    (hEffect : DomainEffect env.E (env.position order b.slotNumber b.index before.length) tx st st'
      none) :
    st'.im.pendingSpent tx.redeemsTxID = true ∧ ∃ found, found.tid = tx.redeemsTxID ∧
      (st.im.getDomain env.E tx.domainName = some found ∨
        st.im.real.getDomain env.E tx.domainName = some found) := by
  obtain ⟨sh, sh', -, hValid⟩ := hSite.valid
  have hReplaces := replaces_of_effect hEffect hRedeeming.writes
  obtain ⟨hOwn, hSpent⟩ :=
    hReplaces.own hRedeeming (Validation.redeems_of_validateTx hValid hRedeeming)
  obtain ⟨found, hFound, hName⟩ := redeemsOwnDomain_eq_true.mp hOwn
  obtain ⟨hTid, -, hStands⟩ :=
    hSite.traced.of_getTxByID hSite.named hInj (order.perm _) hFound
  rw [hName] at hStands
  exact ⟨hSpent, found, hTid, hStands⟩

/-- The number that a valid transaction redeems is new to the block. -/
theorem Site.unredeemed (hSite : Site env names blocks s b before tx st log)
    (hRedeeming : Redeeming tx) : ∀ e ∈ log, e.height = blocks.length → Redeeming e.tx →
      e.tx.redeemsTxID ≠ tx.redeemsTxID := by
  intro e he hHere hType hSame
  obtain ⟨sh, sh', hRun, hValid⟩ := hSite.valid
  have hSpent := Validation.spent_run hRun e.tx (hSite.here e he hHere) hType
  rw [hSame, ((Validation.spent_validateTx hValid).2 hRedeeming).1] at hSpent
  exact absurd hSpent (by simp)

/-- A revocation by the slot leader is not valid in a block that has registered the domain. -/
theorem Site.signed_of_revealed (hSite : Site env names blocks s b before tx st log) {r : Effect}
    (hr : r ∈ log) (hHere : r.height = blocks.length) (hType : r.tx.type = .reveal)
    (hName : r.tx.domainName = tx.domainName) : tx.ownerKey ≠ [] := by
  intro hKey
  obtain ⟨sh, sh', hRun, hValid⟩ := hSite.valid
  have hRegistered := (Validation.registered_run hRun tx.domainName).mpr
    ⟨r.tx, hSite.here r hr hHere, hType, hName⟩
  rw [Validation.unregistered_of_ownerless hValid (by simp [hKey])] at hRegistered
  exact absurd hRegistered (by simp)

/-- The entry of a domain after a transaction has taken effect. -/
theorem Accountable.departs_step (h : Accountable env.E names blocks.length log st.im)
    (hSite : Site env names blocks s b before tx st log) (hInj : Set.InjOn env.E.sha256 names)
    (hEffect : DomainEffect env.E (env.position order b.slotNumber b.index before.length) tx st st'
      none) {d : Bytes} (hd : d ∈ names) :
    Departs env.E blocks.length (log ++ [⟨blocks.length, b, tx, st, st'⟩]) st'.im d := by
  have hReal := real_of_effect hEffect
  have hNew : (⟨blocks.length, b, tx, st, st'⟩ : Effect) ∈
      log ++ [⟨blocks.length, b, tx, st, st'⟩] := List.mem_append_right _ List.mem_cons_self
  by_cases hWrite : Writes tx ∧ tx.domainName = d
  · obtain ⟨hWrites, rfl⟩ := hWrite
    obtain ⟨sh, sh', -, hValid⟩ := hSite.valid
    rcases reveal_or_redeeming hWrites (Validation.type_ne_register_of_validateTx hValid) with
      hReveal | hRedeeming
    · exact .revealed _ hNew rfl hReveal rfl
    · cases h.departs tx.domainName hd with
      | kept same =>
        -- the overlay and the index under it have the same entry, which is now redeemed
        obtain ⟨-, found, hTid, hStands⟩ := hSite.redeemed hInj hRedeeming hEffect
        rw [same, or_self] at hStands
        exact .redeemed found (hReal ▸ hStands) _ hNew rfl hRedeeming hTid.symm
      | revealed r mem here type name =>
        exact .revealed r (List.mem_append_left _ mem) here type name
      | redeemed entry old u mem here redeeming number =>
        exact .redeemed entry (hReal ▸ old) u (List.mem_append_left _ mem) here redeeming number
  · exact (h.departs d hd).mono _ hReal
      (getDomain_of_effect hEffect fun hWrites hName => hWrite ⟨hWrites, hName⟩)

/-- The entry is redeemed, or the old one after a REVEAL. -/
theorem Accountable.redeems_step (h : Accountable env.E names blocks.length log st.im)
    (hSite : Site env names blocks s b before tx st log) (hInj : Set.InjOn env.E.sha256 names)
    (hEffect : DomainEffect env.E (env.position order b.slotNumber b.index before.length) tx st st'
      none) (hRedeeming : Redeeming tx) :
    Effect.RedeemsEntry env.E ⟨blocks.length, b, tx, st, st'⟩ ∨
      Effect.Stale env.E log ⟨blocks.length, b, tx, st, st'⟩ := by
  by_cases hEntry : Effect.RedeemsEntry env.E ⟨blocks.length, b, tx, st, st'⟩
  · exact .inl hEntry
  refine .inr ?_
  obtain ⟨-, found, hTid, hOverlay | hUnder⟩ := hSite.redeemed hInj hRedeeming hEffect
  · exact absurd ⟨found, hOverlay, hTid⟩ hEntry
  · cases h.departs tx.domainName hSite.name with
    | kept same => exact absurd ⟨found, same.trans hUnder, hTid⟩ hEntry
    | revealed r mem here type name =>
      exact ⟨hRedeeming, hSite.signed_of_revealed mem here type name, ⟨r, mem, here, type, name⟩,
        ⟨found, hUnder, hTid⟩, hEntry⟩
    | redeemed entry old u mem here redeeming number =>
      -- the entry before the block has been redeemed in the block already
      obtain rfl := Option.some.inj (old.symm.trans hUnder)
      exact absurd (number.trans hTid) (hSite.unredeemed hRedeeming u mem here redeeming)

theorem Accountable.once_step (h : Accountable env.E names blocks.length log st.im)
    (hSite : Site env names blocks s b before tx st log) (hRedeeming : Redeeming tx) :
    ∀ u ∈ log, Redeeming u.tx → u.tx.redeemsTxID ≠ tx.redeemsTxID := by
  intro u hu hType hSame
  by_cases hHere : u.height = blocks.length
  · exact hSite.unredeemed hRedeeming u hu hHere hType hSame
  · obtain ⟨sh, sh', -, hValid⟩ := hSite.valid
    have hSpent := h.spentBefore u hu hType hHere
    have hUnspent : s.index.isSpent tx.redeemsTxID = false :=
      Validation.isSpent_of_validateTx hValid hRedeeming
    rw [hSame, hSite.real, hUnspent] at hSpent
    exact absurd hSpent (by simp)

theorem Accountable.step (hInj : Set.InjOn env.E.sha256 names) :
    KeptByEffects env names (Accountable env.E names) := by
  intro blocks s b order before tx st st' log hSite h hEffect
  have hReal := real_of_effect hEffect
  refine ⟨fun d hd => h.departs_step hSite hInj hEffect hd, ?_, ?_,
    along_concat.mpr ⟨h.redeems, h.redeems_step hSite hInj hEffect⟩,
    along_concat.mpr ⟨h.once, h.once_step hSite⟩⟩
  · intro e he hType
    unfold IndexOverlay.isSpent
    rw [hReal]
    rcases List.mem_append.mp he with hOld | hNew
    · rcases Bool.or_eq_true_iff.mp (h.spent e hOld hType) with hPending | hBefore
      · rw [pendingSpent_of_effect hEffect hPending, Bool.true_or]
      · rw [hBefore, Bool.or_true]
    · obtain rfl := List.mem_singleton.mp hNew
      rw [(hSite.redeemed hInj hType hEffect).1, Bool.true_or]
  · intro e he hType hBelow
    rw [hReal]
    rcases List.mem_append.mp he with hOld | hNew
    · exact h.spentBefore e hOld hType hBelow
    · obtain rfl := List.mem_singleton.mp hNew
      exact absurd rfl hBelow

theorem accountable_of_effectLog (hLog : EffectLog env blocks s log)
    (hInj : Set.InjOn env.E.sha256 names)
    (hNames : ∀ b ∈ blocks, ∀ tx ∈ b.transactions, tx.domainName ∈ names) :
    Accountable env.E names blocks.length log (.newIndexOverlay s.index) := by
  refine hLog.invariant ?_ (Accountable.step hInj) ?_ hInj hNames
  · exact ⟨fun d _ => .kept rfl, by simp, by simp, along_nil, along_nil⟩
  · intro height log o im hAnswers h
    have hSpent : ∀ e ∈ log, Redeeming e.tx → im.isSpent e.tx.redeemsTxID = true :=
      fun e he hType => (hAnswers.spent _).trans (h.spent e he hType)
    exact ⟨fun d _ => .kept rfl, hSpent, fun e he hType _ => hSpent e he hType, h.redeems, h.once⟩

end Step

/-! ## Lines of writes -/

/-- Writes of one domain, in order: they start with a REVEAL, what is no REVEAL redeems the one
before it, and no two redeem the same. -/
structure Lineage (txs : List Transaction) : Prop where
  first : ∀ tx ∈ txs.head?, tx.type = .reveal
  linked : txs.IsChain fun earlier tx => tx.type = .reveal ∨ tx.redeemsTxID = earlier.tid
  unbranched : ((txs.filter (Redeeming ·)).map Transaction.redeemsTxID).Nodup

section Lines

variable {env : Env} {names : Set Bytes} {log : List Effect} {e : Effect} {d : Bytes}

theorem Lineage.nil : Lineage [] := ⟨by simp, .nil, by simp⟩

/-- What a line needs to go on. -/
theorem Lineage.concat {txs : List Transaction} (h : Lineage txs) {tx : Transaction}
    (hFirst : txs = [] → tx.type = .reveal)
    (hLinked : ∀ earlier ∈ txs.getLast?, tx.type = .reveal ∨ tx.redeemsTxID = earlier.tid)
    (hOnce : Redeeming tx → ∀ earlier ∈ txs, Redeeming earlier →
      earlier.redeemsTxID ≠ tx.redeemsTxID) : Lineage (txs ++ [tx]) where
  first := by
    cases txs with
    | nil => simpa using hFirst
    | cons first rest => simpa using h.first
  linked := by
    rw [List.isChain_append]
    refine ⟨h.linked, .singleton _, fun earlier hEarlier next hNext => ?_⟩
    obtain rfl : tx = next := by simpa using hNext
    exact hLinked earlier hEarlier
  unbranched := by
    rw [List.filter_append, List.map_append, List.nodup_append]
    refine ⟨h.unbranched, ?_, ?_⟩
    · by_cases hType : Redeeming tx <;> simp [hType]
    · intro number hNumber number' hNumber'
      obtain ⟨earlier, hEarlier, rfl⟩ := List.mem_map.mp hNumber
      obtain ⟨next, hNext, rfl⟩ := List.mem_map.mp hNumber'
      obtain ⟨hMem, hType⟩ := List.mem_filter.mp hEarlier
      obtain ⟨hMem', hType'⟩ := List.mem_filter.mp hNext
      obtain rfl := List.mem_singleton.mp hMem'
      exact hOnce (of_decide_eq_true hType') earlier hMem (of_decide_eq_true hType)

/-- A write that redeems the entry of its domain redeems the write before it. -/
theorem redeems_last_write (hRecorded : Recorded env names log e)
    (hPrior : ∀ u ∈ log, ∃ prior, Recorded env names prior u) (hEntry : e.RedeemsEntry env.E) :
    ∃ u ∈ (writesOf e.tx.domainName log).getLast?, e.tx.redeemsTxID = u.tx.tid := by
  obtain ⟨entry, hGet, hTid⟩ := hEntry
  rw [hRecorded.standing _ hRecorded.name] at hGet
  obtain ⟨u, hLast, hAfter⟩ := Option.bind_eq_some_iff.mp hGet
  obtain ⟨hMem, hWrites, hName⟩ := mem_effectsOf.mp (List.mem_of_getLast? hLast)
  obtain ⟨prior, hu⟩ := hPrior u hMem
  obtain ⟨order, i, hEffect⟩ := hu.effect
  obtain ⟨t, hStored, hAs⟩ := (replaces_of_effect hEffect hWrites).stored
  rw [hName, hAfter] at hStored
  obtain rfl := Option.some.inj hStored
  exact ⟨u, hLast, hTid.symm.trans hAs.tid⟩

/-- The writes of a domain form a line, if all redeem the entry of the domain. -/
theorem lineage_of_redeems (hRecorded : Along (Recorded env names) log)
    (hOnce : Along (fun prior e => Redeeming e.tx → ∀ u ∈ prior, Redeeming u.tx →
      u.tx.redeemsTxID ≠ e.tx.redeemsTxID) log)
    (hRedeems : ∀ e ∈ log, Redeeming e.tx → e.RedeemsEntry env.E) (d : Bytes) :
    Lineage ((writesOf d log).map Effect.tx) := by
  induction log using List.reverseRecOn with
  | nil => exact .nil
  | append_singleton log e ih =>
    obtain ⟨hOld, hNew⟩ := along_concat.mp hRecorded
    obtain ⟨hOnceOld, hOnceNew⟩ := along_concat.mp hOnce
    have hLine := ih hOld hOnceOld fun u hu => hRedeems u (List.mem_append_left _ hu)
    rw [writesOf_concat]
    by_cases hWrite : Writes e.tx ∧ e.tx.domainName = d
    swap
    · rw [if_neg hWrite, List.append_nil]
      exact hLine
    rw [if_pos hWrite, List.map_append]
    obtain ⟨hWrites, rfl⟩ := hWrite
    have hPrior : ∀ u ∈ log, ∃ prior, Recorded env names prior u :=
      fun u hu => by
        obtain ⟨prior, after, hSplit⟩ := List.append_of_mem hu
        exact ⟨prior, hOld prior u after hSplit⟩
    -- a REVEAL needs nothing, and what redeems has an entry to redeem
    have hLast : e.tx.type = .reveal ∨
        ∃ u ∈ (writesOf e.tx.domainName log).getLast?, e.tx.redeemsTxID = u.tx.tid := by
      rcases reveal_or_redeeming hWrites hNew.notRegister with hReveal | hRedeeming
      · exact .inl hReveal
      · exact .inr (redeems_last_write hNew hPrior (hRedeems e (by simp) hRedeeming))
    refine hLine.concat ?_ ?_ ?_
    · intro hNone
      rcases hLast with hReveal | ⟨u, hu, -⟩
      · exact hReveal
      · rw [List.map_eq_nil_iff.mp hNone] at hu
        simp at hu
    · intro earlier hEarlier
      refine hLast.imp_right ?_
      rintro ⟨u, hu, hTid⟩
      rw [List.getLast?_map, hu] at hEarlier
      obtain rfl := Option.some.inj hEarlier
      exact hTid
    · intro hRedeeming earlier hEarlier hType
      obtain ⟨u, hu, rfl⟩ := List.mem_map.mp hEarlier
      exact hOnceNew hRedeeming u (mem_effectsOf.mp hu).1 hType

end Lines

/-- **When provenance is a chain.** Every signed UPDATE, RENEW and REVOKE that takes effect redeems
the transaction that is indexed for its domain just before it, if and only if none redeems the
entry from before its block after a REVEAL of the domain in that block. Then the writes of every
domain are lines from a REVEAL on. -/
theorem provenance_iff {env : Env} {names : Set Bytes} {blocks : List Block} {s : ChainState}
    {log : List Effect} (hLog : EffectLog env blocks s log) (hInj : Set.InjOn env.E.sha256 names)
    (hNames : ∀ b ∈ blocks, ∀ tx ∈ b.transactions, tx.domainName ∈ names) :
    ((∀ e ∈ log, Redeeming e.tx → e.tx.ownerKey ≠ [] → e.RedeemsEntry env.E) ↔
      Along (fun prior e => ¬ e.Stale env.E prior) log) ∧
    (Along (fun prior e => ¬ e.Stale env.E prior) log →
      ∀ d, Lineage ((writesOf d log).map Effect.tx)) := by
  obtain ⟨hRecorded, -⟩ := recorded_of_effectLog hLog hInj hNames
  have hAccountable := accountable_of_effectLog hLog hInj hNames
  have hFresh : Along (fun prior e => ¬ e.Stale env.E prior) log →
      ∀ e ∈ log, Redeeming e.tx → e.RedeemsEntry env.E := by
    intro hNone
    refine along_iff_forall_mem.mp (fun prior e after hSplit hRedeeming => ?_)
    exact (hAccountable.redeems prior e after hSplit hRedeeming).resolve_right
      (hNone prior e after hSplit)
  refine ⟨⟨?_, fun hNone e he hRedeeming _ => hFresh hNone e he hRedeeming⟩, fun hNone d => ?_⟩
  · rintro hAll prior e after rfl hStale
    exact hStale.other (hAll e (by simp) hStale.redeeming hStale.signed)
  · exact lineage_of_redeems hRecorded hAccountable.once (hFresh hNone) d

namespace StandIn

open Network.StandIn

/-- An UPDATE of the domain by its owner. -/
def redeemingUpdate (tid redeemsTxID : Int64) (nonce : UInt64) : Transaction :=
  registryTx
    { tid, type := .update, nonce, redeemsTxID, expirySlot := 1000, domainName := utf8 "a.bdns"
      records := [⟨utf8 "A", utf8 "10.0.0.1", 0⟩] }

/-- A registration and two updates, the first of them in the block of the REVEAL. -/
def lineLog : List (Int64 × List Transaction) :=
  [(1, [commitTx 1 0 [1]]), (4, [revealTx 2 1 1 [1] 1000, redeemingUpdate 3 2 2]),
    (5, [redeemingUpdate 4 3 3])]

/-- The domain is registered until slot 5 and purged from slot 35 on, when no block is made. The
block at slot 40 registers it anew and updates it, redeeming the first REVEAL. -/
def staleLog : List (Int64 × List Transaction) :=
  [(1, [commitTx 1 0 [1]]), (4, [revealTx 2 1 1 [1] 5]), (37, [commitTx 3 2 [2]]),
    (40, [revealTx 4 3 3 [2] 1000, redeemingUpdate 5 2 4])]

end StandIn

open Network.StandIn StandIn in
theorem provenance_iff_line :
    ∃ log, EffectLog registryEnv ([registryGenesis] ++
        logBlocks (genesisState registryEnv, registryGenesis) lineLog) (afterLog lineLog).1 log ∧
      (writesOf (utf8 "a.bdns") log).map (fun e => e.tx.tid) = [2, 3, 4] ∧
      Lineage ((writesOf (utf8 "a.bdns") log).map Effect.tx) := by
  obtain ⟨hEvents, hAccepted, hNames⟩ :
      (logEffects 1 (genesisState registryEnv, registryGenesis) lineLog).toOption.any
          (fun log => decide ((writesOf (utf8 "a.bdns") log).map (fun e => e.tx.tid) = [2, 3, 4]) &&
            log.all fun e => decide (Redeeming e.tx → e.tx.ownerKey ≠ [] →
              (e.before.im.getDomain registryEnv.E e.tx.domainName).any
                (fun entry => entry.tid = e.tx.redeemsTxID) = true)) = true ∧
        logAccepted (genesisState registryEnv, registryGenesis) lineLog = true ∧
        ∀ b ∈ [registryGenesis] ++ logBlocks (genesisState registryEnv, registryGenesis) lineLog,
          ∀ tx ∈ b.transactions, tx.domainName ∈ {d | d ∈ [[], utf8 "a.bdns"]} := by
    decide +kernel
  obtain ⟨log, hLog, hBoth⟩ := exists_of_any hEvents
  obtain ⟨hTids, hAll⟩ := Bool.and_eq_true_iff.mp hBoth
  have hHistory := effectLog_afterLog hAccepted hLog
  obtain ⟨hIff, hLines⟩ := provenance_iff hHistory injOn_domain hNames
  refine ⟨log, hHistory, of_decide_eq_true hTids, hLines (hIff.mp fun e he hType hKey => ?_) _⟩
  have hEntry := of_decide_eq_true (List.all_eq_true.mp hAll e he) hType hKey
  obtain ⟨entry, hGet, hTid⟩ := (Option.any_eq_true _ _).mp hEntry
  exact ⟨entry, hGet, of_decide_eq_true hTid⟩

open Network.StandIn StandIn in
/-- The UPDATE in the block of the second REVEAL takes effect: it redeems transaction 2, while
transaction 4 is indexed for the domain. -/
theorem stale_update_takes_effect :
    ∃ log, EffectLog registryEnv ([registryGenesis] ++
        logBlocks (genesisState registryEnv, registryGenesis) staleLog) (afterLog staleLog).1 log ∧
      ∃ e ∈ log, e.tx = redeemingUpdate 5 2 4 ∧
        ∃ entry, e.before.im.getDomain registryEnv.E (utf8 "a.bdns") = some entry ∧
          entry.tid = 4 ∧ e.tx.redeemsTxID = 2 := by
  obtain ⟨hEvents, hAccepted⟩ :
      (logEffects 1 (genesisState registryEnv, registryGenesis) staleLog).toOption.any
          (fun log => log.any fun e => decide (e.tx = redeemingUpdate 5 2 4) &&
            (e.before.im.getDomain registryEnv.E (utf8 "a.bdns")).any
              fun entry => decide (entry.tid = 4)) = true ∧
        logAccepted (genesisState registryEnv, registryGenesis) staleLog = true := by
    decide +kernel
  obtain ⟨log, hLog, hSome⟩ := exists_of_any hEvents
  obtain ⟨e, he, hBoth⟩ := List.any_eq_true.mp hSome
  obtain ⟨hTx, hEntry⟩ := Bool.and_eq_true_iff.mp hBoth
  obtain ⟨entry, hGet, hTid⟩ := (Option.any_eq_true _ _).mp hEntry
  have hUpdate := of_decide_eq_true hTx
  refine ⟨log, effectLog_afterLog hAccepted hLog, e, he, hUpdate, entry, hGet,
    of_decide_eq_true hTid, ?_⟩
  rw [hUpdate]
  decide +kernel

end Bdns.Safety
