import Bdns.Lib.Register
import Bdns.Network.Resolver
import Bdns.Safety.Listings

/-!
# The index as a register of names

What the chain is for is said by `Lib.Register`: names with owners, data, terms and prices, and who
may change them when. Here the index of an accepted chain is shown to be such a register. Each
transaction that took effect and concerns a domain is an act (`actOf`), it was allowed when it was
done (`allowed_of_effect`), and it changed the entry as the act changes the deed
(`shows_of_effect`). So the index is the replay of the acts (`Shown`), and what is proved of lawful
registers holds of the chain.
-/

namespace Bdns.Safety

open Lib Blockchain Network Index

/-! ## Transactions as acts -/

/-- An act of the registry: names and keys are bytes, times are slots. -/
abbrev DomainAct := Act Bytes Bytes Record Int64

/-- The act that a transaction is. The others do not concern the register. -/
def actOf (tx : Transaction) : Option DomainAct :=
  match tx.type with
  | .reveal => some (.register tx.domainName tx.recipient tx.records tx.expirySlot)
  | .update => some (.update tx.domainName tx.ownerKey tx.records tx.expirySlot)
  | .renew => some (.renew tx.domainName tx.ownerKey tx.records tx.expirySlot)
  | .revoke =>
    if tx.ownerKey.length = 0 then some (.lapse tx.domainName tx.records tx.expirySlot)
    else some (.revoke tx.domainName tx.ownerKey tx.records tx.expirySlot)
  | .list => some (.list tx.domainName tx.ownerKey tx.listPrice.toNat)
  | .delist => some (.delist tx.domainName tx.ownerKey)
  | .buy => some (.buy tx.domainName tx.ownerKey tx.listPrice.toNat)
  | .transfer => some (.transfer tx.domainName tx.ownerKey tx.recipient)
  | _ => none

/-- The acts of a history, each at the slot of its block. -/
def actsOf (log : List Effect) : List (Int64 × DomainAct) :=
  log.filterMap fun e => (actOf e.tx).map (e.block.slotNumber, ·)

/-- The phases of a domain. -/
def domainTerms (slotsPerDay : Int64) : Terms Int64 where
  Active now expiry := getDomainPhase now expiry slotsPerDay = .active
  Lapsed now expiry := getDomainPhase now expiry slotsPerDay = .purged
  apart := by
    intro now expiry hActive hLapsed
    rw [hActive] at hLapsed
    exact absurd hLapsed (by decide)

/-- What the index says of a domain. -/
def deedOf (E : External) (im : IndexManager) (d : Bytes) : Option (Deed Bytes Record Int64) :=
  (im.getDomain E d).bind fun tx => (im.getOwner E d).map fun owner =>
    ⟨owner, tx.records, tx.expirySlot, (im.getListPrice E d).toNat⟩

/-- What an act says of its transaction. -/
theorem facts_of_actOf {tx : Transaction} {act : DomainAct} (h : actOf tx = some act) :
    act.name = tx.domainName ∧ (act.signer = none ∨ act.signer = some tx.ownerKey) ∧
      ∀ name signer data expiry, act = .renew name signer data expiry →
        tx.type = .renew ∧ tx.expirySlot = expiry := by
  unfold actOf at h
  split at h
  case h_1 =>
    obtain rfl := Option.some.inj h
    exact ⟨rfl, .inl rfl, nofun⟩
  case h_3 hType =>
    obtain rfl := Option.some.inj h
    exact ⟨rfl, .inr rfl, fun _ _ _ _ hRenew => ⟨hType, (Act.renew.inj hRenew).2.2.2⟩⟩
  case h_4 =>
    split at h
    · obtain rfl := Option.some.inj h
      exact ⟨rfl, .inl rfl, nofun⟩
    · obtain rfl := Option.some.inj h
      exact ⟨rfl, .inr rfl, nofun⟩
  case h_9 => exact absurd h (by simp)
  all_goals
    obtain rfl := Option.some.inj h
    exact ⟨rfl, .inr rfl, nofun⟩

theorem actsOf_concat (log : List Effect) (e : Effect) : actsOf (log ++ [e]) =
    actsOf log ++ ((actOf e.tx).map (e.block.slotNumber, ·)).toList := by
  unfold actsOf
  rw [List.filterMap_append]
  cases hAct : actOf e.tx <;> simp [hAct]

/-! ## The overlay and the register -/

/-- An overlay answers for a domain what a deed says. -/
def Shows (E : External) (o : IndexOverlay) (d : Bytes) : Option (Deed Bytes Record Int64) → Prop
  | none => o.getDomain E d = none ∧ o.getOwner E d = none ∧ o.getListPrice E d = 0
  | some deed => (∃ t, o.getDomain E d = some t ∧ t.records = deed.data ∧
      t.expirySlot = deed.expiry) ∧
    o.getOwner E d = some deed.owner ∧ (o.getListPrice E d).toNat = deed.price

section Steps

variable {E : External} {pos : Position} {tx : Transaction} {st st' : DomainState}
  {R : Register Bytes Bytes Record Int64} {act : DomainAct} {d : Bytes}

/-- An entry has a deed. -/
theorem deed_of_getDomain {o : IndexOverlay} {t : Transaction} (h : Shows E o d (R d))
    (hEntry : o.getDomain E d = some t) :
    ∃ deed, R d = some deed ∧ t.records = deed.data ∧ t.expirySlot = deed.expiry ∧
      o.getOwner E d = some deed.owner ∧ (o.getListPrice E d).toNat = deed.price := by
  cases hDeed : R d with
  | none =>
    rw [hDeed] at h
    exact absurd (hEntry.symm.trans h.1) (by simp)
  | some deed =>
    rw [hDeed] at h
    obtain ⟨⟨t', hEntry', hData, hExpiry⟩, hOwner, hPrice⟩ := h
    obtain rfl := Option.some.inj (hEntry.symm.trans hEntry')
    exact ⟨deed, rfl, hData, hExpiry, hOwner, hPrice⟩

/-- What is owned is entered, here by the signer. -/
theorem deed_of_ownedBySigner (h : Shows E st.im tx.domainName (R tx.domainName))
    (hOwned : ownedBySigner E tx st = true) :
    ∃ deed t, R tx.domainName = some deed ∧ deed.owner = tx.ownerKey ∧
      st.im.getDomain E tx.domainName = some t ∧ t.expirySlot = deed.expiry := by
  obtain ⟨owner, hOwner, hSame⟩ := (Option.any_eq_true _ _).mp hOwned
  cases hDeed : R tx.domainName with
  | none =>
    rw [hDeed] at h
    exact absurd (hOwner.symm.trans h.2.1) (by simp)
  | some deed =>
    rw [hDeed] at h
    obtain ⟨⟨t, hEntry, -, hExpiry⟩, hHolder, -⟩ := h
    rw [Option.some.inj (hOwner.symm.trans hHolder)] at hSame
    exact ⟨deed, t, rfl, hexEncode_injective (beq_iff_eq.mp hSame), hEntry, hExpiry⟩

/-- The entry that a transaction leaves for its domain. -/
theorem entry_of_write (hEffect : DomainEffect E pos tx st st' none) (hWrites : Writes tx)
    (hType : tx.type ≠ .renew) :
    ∃ t, st'.im.getDomain E tx.domainName = some t ∧ t.records = tx.records ∧
      t.expirySlot = tx.expirySlot := by
  cases hEffect with
  | skipped h =>
    rcases h with h | h | h | h | ⟨_, _, h⟩ <;> simp [Writes, h] at hWrites
  | committed h | listed h | delisted h | bought h | transferred h => simp [Writes, h] at hWrites
  | renewed h => exact absurd h hType
  | registered =>
    refine ⟨tx, ?_, rfl, rfl⟩
    dsimp only
    rw [IndexOverlay.getDomain_setOwner, addDomain, IndexOverlay.getDomain_add, if_pos rfl]
  | revealed =>
    refine ⟨tx, ?_, rfl, rfl⟩
    dsimp only
    rw [IndexOverlay.getDomain_markAsSpent, IndexOverlay.getDomain_setOwner, addDomain,
      IndexOverlay.getDomain_add, if_pos rfl]
  | revoked => exact ⟨tx, by rw [getDomain_revokeDomain, if_pos rfl], rfl, rfl⟩
  | updated => exact ⟨tx, by rw [getDomain_replaceDomain, if_pos rfl]; rfl, rfl, rfl⟩

/-- The entry that a RENEW leaves: the records stay, unless there are none. -/
theorem entry_of_renew (hEffect : DomainEffect E pos tx st st' none) (hType : tx.type = .renew)
    {old : Transaction} (hOld : st.im.getDomain E tx.domainName = some old) :
    ∃ t, st'.im.getDomain E tx.domainName = some t ∧
      t.records = (if old.records.isEmpty then tx.records else old.records) ∧
      t.expirySlot = tx.expirySlot := by
  cases hEffect with
  | skipped h => rcases h with h | h | h | h | ⟨_, _, h⟩ <;> simp [h] at hType
  | registered h | committed h | revealed h | revoked h | updated h | listed h | delisted h
  | bought h | transferred h => simp [h] at hType
  | renewed =>
    refine ⟨_, by rw [getDomain_replaceDomain, if_pos rfl], ?_,
      (storedAs_storeTx E tx st true).expirySlot⟩
    unfold storeTx
    rw [hOld]
    dsimp only
    cases hRecords : old.records with
    | nil => rfl
    | cons r rest => rfl

/-- What validation has found out about a transaction that its application does not check. -/
structure Gated (E : External) (trusted : List Bytes) (tx : Transaction) (o : IndexOverlay) :
    Prop where
  notRegister : tx.type ≠ .register
  priced : tx.type = .list → tx.listPrice ≠ 0
  trusted : tx.type = .renew → tx.ownerKey ∈ trusted
  present : tx.type = .renew → ∃ t, o.getDomain E tx.domainName = some t

variable {trusted : List Bytes}

/-- An act of the owner of an active domain, as LIST, DELIST and TRANSFER are. -/
theorem deed_of_market (h : Shows E st.im tx.domainName (R tx.domainName))
    (hActive : inActivePhase E pos tx st = .ok true)
    (hOwner : st.im.getOwner E tx.domainName = some tx.ownerKey) :
    ∃ deed, R tx.domainName = some deed ∧ deed.owner = tx.ownerKey ∧
      (domainTerms pos.slotsPerDay).Active pos.currentSlot deed.expiry ∧
      (st.im.getListPrice E tx.domainName).toNat = deed.price := by
  obtain ⟨t, hEntry, hPhase⟩ := getDomain_of_inActivePhase hActive
  obtain ⟨deed, hDeed, -, hExpiry, hHolder, hPrice⟩ := deed_of_getDomain h hEntry
  refine ⟨deed, hDeed, Option.some.inj (hHolder.symm.trans hOwner), ?_, hPrice⟩
  rw [← hExpiry]
  exact hPhase

/-- A transaction that took effect was allowed. -/
theorem allowed_of_effect (h : Shows E st.im tx.domainName (R tx.domainName))
    (hGated : Gated E trusted tx st.im) (hEffect : DomainEffect E pos tx st st' none)
    (hAct : actOf tx = some act) :
    act.Allowed (domainTerms pos.slotsPerDay) (· ∈ trusted) pos.currentSlot R := by
  cases hEffect with
  | skipped hType => rcases hType with hType | hType | hType | hType | ⟨_, _, hType⟩ <;>
      simp [actOf, hType] at hAct
  | committed hType => simp [actOf, hType] at hAct
  | registered hType => exact absurd hType hGated.notRegister
  | revealed hType rec hCommit hFree =>
    simp only [actOf, hType, Option.some.injEq] at hAct
    subst hAct
    intro deed hDeed
    rw [hDeed] at h
    obtain ⟨⟨t, hEntry, -, hExpiry⟩, -⟩ := h
    rw [← hExpiry]
    exact phase_of_phaseOutside hFree t hEntry
  | updated hType hOwned hActive =>
    simp only [actOf, hType, Option.some.injEq] at hAct
    subst hAct
    obtain ⟨deed, t, hDeed, hOwner, hEntry, hExpiry⟩ := deed_of_ownedBySigner h hOwned
    refine ⟨deed, hDeed, hOwner, ?_⟩
    rw [← hExpiry]
    exact phase_of_phaseOutside hActive t hEntry
  | renewed hType hUnpurged =>
    simp only [actOf, hType, Option.some.injEq] at hAct
    subst hAct
    obtain ⟨t, hEntry⟩ := hGated.present hType
    obtain ⟨deed, hDeed, -, hExpiry, -⟩ := deed_of_getDomain h hEntry
    refine ⟨deed, hDeed, hGated.trusted hType, ?_⟩
    rw [← hExpiry]
    intro hLapsed
    change getDomainPhase _ _ _ = .purged at hLapsed
    unfold phaseOutside at hUnpurged
    rw [hEntry, Option.bind_some, hLapsed] at hUnpurged
    exact absurd hUnpurged (by decide)
  | revoked hType hOwned _ hAuto =>
    simp only [actOf, hType] at hAct
    split at hAct
    · rename_i hKey
      obtain rfl := Option.some.inj hAct
      obtain ⟨t, hEntry, hPhase⟩ := hAuto hKey
      obtain ⟨deed, hDeed, -, hExpiry, -⟩ := deed_of_getDomain h hEntry
      refine ⟨deed, hDeed, ?_⟩
      rw [← hExpiry]
      exact hPhase
    · rename_i hKey
      obtain rfl := Option.some.inj hAct
      obtain ⟨deed, t, hDeed, hOwner, -⟩ :=
        deed_of_ownedBySigner h (hOwned (Nat.pos_of_ne_zero hKey))
      exact ⟨deed, hDeed, hOwner⟩
  | listed hType hActive hOwner =>
    simp only [actOf, hType, Option.some.injEq] at hAct
    subst hAct
    obtain ⟨deed, hDeed, hHolder, hTerm, -⟩ := deed_of_market h hActive hOwner
    refine ⟨deed, hDeed, hHolder, hTerm, Nat.pos_of_ne_zero fun hZero => ?_⟩
    exact hGated.priced hType (UInt64.toNat_inj.mp hZero)
  | delisted hType hActive hForSale hOwner =>
    simp only [actOf, hType, Option.some.injEq] at hAct
    subst hAct
    obtain ⟨deed, hDeed, hHolder, hTerm, hPrice⟩ := deed_of_market h hActive hOwner
    rw [IndexOverlay.isForSale_eq, decide_eq_true_eq, UInt64.lt_iff_toNat_lt, hPrice] at hForSale
    exact ⟨deed, hDeed, hHolder, hTerm, hForSale⟩
  | bought hType hActive hForSale hOther hLimit =>
    simp only [actOf, hType, Option.some.injEq] at hAct
    subst hAct
    obtain ⟨t, hEntry, hPhase⟩ := getDomain_of_inActivePhase hActive
    obtain ⟨deed, hDeed, -, hExpiry, hHolder, hPrice⟩ := deed_of_getDomain h hEntry
    rw [IndexOverlay.isForSale_eq, decide_eq_true_eq, UInt64.lt_iff_toNat_lt, hPrice] at hForSale
    rw [UInt64.le_iff_toNat_le, hPrice] at hLimit
    rw [hHolder, Option.getD_some] at hOther
    refine ⟨deed, hDeed, hOther.symm, ?_, hForSale, hLimit⟩
    rw [← hExpiry]
    exact hPhase
  | transferred hType hActive hOwner =>
    simp only [actOf, hType, Option.some.injEq] at hAct
    subst hAct
    obtain ⟨deed, hDeed, hHolder, hTerm, -⟩ := deed_of_market h hActive hOwner
    exact ⟨deed, hDeed, hHolder, hTerm⟩

theorem shows_of_same {o o' : IndexOverlay} {deed : Option (Deed Bytes Record Int64)}
    (hEntry : o'.getDomain E d = o.getDomain E d) (hOwner : o'.getOwner E d = o.getOwner E d)
    (hPrice : o'.getListPrice E d = o.getListPrice E d) (h : Shows E o d deed) :
    Shows E o' d deed := by
  cases deed with
  | none =>
    change o'.getDomain E d = none ∧ o'.getOwner E d = none ∧ o'.getListPrice E d = 0
    rw [hEntry, hOwner, hPrice]
    exact h
  | some deed =>
    obtain ⟨⟨t, hOld⟩, hRest⟩ := h
    refine ⟨⟨t, ?_⟩, ?_⟩
    · rw [hEntry]
      exact hOld
    · rw [hOwner, hPrice]
      exact hRest

/-- What is not an act changes no deed. -/
theorem shows_of_no_act (hAct : actOf tx = none) (hRegister : tx.type ≠ .register)
    (hEffect : DomainEffect E pos tx st st' none) {deed : Option (Deed Bytes Record Int64)}
    (h : Shows E st.im d deed) : Shows E st'.im d deed := by
  have hTypes : ¬ Writes tx ∧ ¬ Acquires tx ∧ ¬ SetsPrice tx := by
    unfold actOf at hAct
    split at hAct
    case h_4 => split at hAct <;> simp at hAct
    case h_9 hReveal hUpdate hRenew hRevoke hList hDelist hBuy hTransfer =>
      refine ⟨?_, ?_, ?_⟩
      · rintro (h | h | h | h | h)
        exacts [hRegister h, hReveal h, hRevoke h, hUpdate h, hRenew h]
      · rintro (h | h | h)
        exacts [hReveal h, hBuy h, hTransfer h]
      · rintro (h | h | h | h)
        exacts [hList h, hDelist h, hBuy h, hTransfer h]
    all_goals simp at hAct
  obtain ⟨hWrites, hAcquires, hSets⟩ := hTypes
  refine shows_of_same (getDomain_of_effect hEffect fun h => absurd h hWrites) ?_ ?_ h
  · rw [getOwner_of_effect hEffect hRegister, if_neg fun h => hAcquires h.1]
  · rw [getListPrice_of_effect hEffect, if_neg fun h => hSets h.1]

/-- A transaction that took effect changed the entry as its act changes the deed. -/
theorem shows_of_effect (h : Shows E st.im d (R d)) (hRegister : tx.type ≠ .register)
    (hEffect : DomainEffect E pos tx st st' none) (hAct : actOf tx = some act)
    {terms : Terms Int64} {trusts : Bytes → Prop} {now : Int64}
    (hAllowed : act.Allowed terms trusts now R) : Shows E st'.im d (act.apply R d) := by
  have hOwner' := getOwner_of_effect hEffect hRegister d
  have hPrice' := getListPrice_of_effect hEffect d
  have hName := (facts_of_actOf hAct).1
  by_cases hd : tx.domainName = d
  swap
  · -- another domain
    rw [Act.apply, Function.update_of_ne fun hEq => hd (hName.symm.trans hEq.symm)]
    rw [if_neg fun h => hd h.2] at hOwner' hPrice'
    exact shows_of_same (getDomain_of_effect hEffect fun _ => hd) hOwner' hPrice' h
  subst hd
  rw [Act.apply, hName, Function.update_self]
  -- what the act finds
  have hFound : ∀ {deed}, R tx.domainName = some deed →
      Shows E st.im tx.domainName (some deed) := by
    intro deed hDeed
    rw [← hDeed]
    exact h
  unfold actOf at hAct
  split at hAct
  case h_1 hType =>
    obtain rfl := Option.some.inj hAct
    rw [if_pos ⟨.inl hType, rfl⟩, newOwner, if_neg (by simp [hType])] at hOwner'
    rw [if_neg (by simp [SetsPrice, hType])] at hPrice'
    refine ⟨entry_of_write hEffect (.inr (.inl hType)) (by simp [hType]), hOwner', ?_⟩
    rw [hPrice']
    cases hDeed : R tx.domainName with
    | none =>
      rw [hDeed] at h
      rw [h.2.2]
      rfl
    | some deed =>
      exact (hFound hDeed).2.2
  case h_2 hType =>
    obtain rfl := Option.some.inj hAct
    obtain ⟨deed, hDeed, -⟩ := hAllowed
    obtain ⟨-, hOwner, hPrice⟩ := hFound hDeed
    rw [if_neg (by simp [Acquires, hType]), hOwner] at hOwner'
    rw [if_neg (by simp [SetsPrice, hType])] at hPrice'
    rw [hDeed]
    exact ⟨entry_of_write hEffect (.inr (.inr (.inr (.inl hType)))) (by simp [hType]), hOwner',
      hPrice' ▸ hPrice⟩
  case h_3 hType =>
    obtain rfl := Option.some.inj hAct
    obtain ⟨deed, hDeed, -⟩ := hAllowed
    obtain ⟨⟨t, hEntry, hData, -⟩, hOwner, hPrice⟩ := hFound hDeed
    rw [if_neg (by simp [Acquires, hType]), hOwner] at hOwner'
    rw [if_neg (by simp [SetsPrice, hType])] at hPrice'
    rw [hDeed]
    have hNew := entry_of_renew hEffect hType hEntry
    rw [hData] at hNew
    exact ⟨hNew, hOwner', hPrice' ▸ hPrice⟩
  case h_4 hType =>
    have hDeed : ∃ deed, R tx.domainName = some deed := by
      split at hAct
      · obtain rfl := Option.some.inj hAct
        obtain ⟨deed, hDeed, -⟩ := hAllowed
        exact ⟨deed, hDeed⟩
      · obtain rfl := Option.some.inj hAct
        obtain ⟨deed, hDeed, -⟩ := hAllowed
        exact ⟨deed, hDeed⟩
    obtain ⟨deed, hDeed⟩ := hDeed
    obtain ⟨-, hOwner, hPrice⟩ := hFound hDeed
    rw [if_neg (by simp [Acquires, hType]), hOwner] at hOwner'
    rw [if_neg (by simp [SetsPrice, hType])] at hPrice'
    have hEntry := entry_of_write hEffect (.inr (.inr (.inl hType))) (by simp [hType])
    rw [hDeed]
    split at hAct <;> obtain rfl := Option.some.inj hAct <;>
      exact ⟨hEntry, hOwner', hPrice' ▸ hPrice⟩
  case h_9 => exact absurd hAct (by simp)
  all_goals
    rename_i hType
    obtain rfl := Option.some.inj hAct
    obtain ⟨deed, hDeed, -⟩ := hAllowed
    obtain ⟨⟨t, hEntry, hData, hExpiry⟩, hOwner, hPrice⟩ := hFound hDeed
    have hSame := getDomain_of_effect hEffect
      (show Writes tx → tx.domainName ≠ tx.domainName by simp [Writes, hType])
    rw [hDeed]
    refine ⟨⟨t, hSame.trans hEntry, hData, hExpiry⟩, ?_, ?_⟩
    · rw [hOwner']
      simp [Acquires, newOwner, hType, hOwner]
    · rw [hPrice']
      simp [SetsPrice, newPrice, hType]

end Steps

/-! ## Histories -/

/-- A sale pays the owner the price that the deed names, and nothing else moves coins here. -/
structure Settled (prior : List Effect) (e : Effect) : Prop where
  sale : e.tx.type = .buy → ∃ deed price, replay (actsOf prior) e.tx.domainName = some deed ∧
    price.toNat = deed.price ∧
    Moved e.before.ledger e.after.ledger (hexEncode e.tx.ownerKey) (hexEncode deed.owner) price
  others : e.tx.type ≠ .buy → e.after.ledger = e.before.ledger

/-- The acts of a history were lawful and its sales were settled, and an overlay shows the register
that the acts lead to. -/
structure Shown (env : Env) (names : Set Bytes) (log : List Effect) (o : IndexOverlay) : Prop where
  lawful : Lawful (domainTerms env.slotsPerDay) (· ∈ env.trustedRegistries) (actsOf log)
  settled : Along Settled log
  shows : ∀ d ∈ names, Shows env.E o d (replay (actsOf log) d)

section Histories

variable {env : Env} {names : Set Bytes} {blocks : List Block} {s : ChainState} {log : List Effect}

/-- What the index has, the overlay has. -/
theorem Traced.getDomain_of_real {pool : Transaction → Prop} {o : IndexOverlay} {d : Bytes}
    {t : Transaction} (h : Traced env names pool o) (hReal : o.real.getDomain env.E d = some t) :
    ∃ t', o.getDomain env.E d = some t' := by
  unfold IndexOverlay.getDomain
  cases hEntry : o.journal[d]? with
  | none => exact ⟨t, hReal⟩
  | some entry =>
    cases hAdded : entry.addedTx with
    | some t' => exact ⟨t', tx_of_addedTx hAdded⟩
    | none => exact ⟨t, (h.journal.unchanged d entry hEntry hAdded).trans hReal⟩

theorem Site.gated {b : Block} {before : List Transaction} {tx : Transaction}
    {st st' : DomainState} {order : JournalOrder} (h : Site env names blocks s b before tx st log)
    (hInj : Set.InjOn env.E.sha256 names)
    (hEffect : DomainEffect env.E (env.position order b.slotNumber b.index before.length) tx st st'
      none) : Gated env.E env.trustedRegistries tx st.im := by
  obtain ⟨sh, sh', -, hValid⟩ := h.valid
  obtain ⟨domains, hForm, hRest⟩ := Validation.validateTx_eq_ok hValid
  obtain ⟨redeemed, hFormed⟩ := Validation.formed_of_checkForm hForm
  refine ⟨hFormed.notRegister, ?_, ?_, ?_⟩
  · obtain ⟨_, hPrice, -⟩ := bind_eq_ok.mp hFormed.shape
    exact require_eq_ok.mp hPrice
  · intro hType
    obtain ⟨hKey, -⟩ | ⟨-, b₁, b₂, domains', coins', -, hGates, -⟩ := hRest
    · have hRevoke := Validation.type_of_ownerless hValid hKey
      exact absurd (hType.symm.trans hRevoke) (by decide)
    · obtain ⟨b, sh₁, sh₂, sh₃, sh₄, sh₅, -, -, -, hRenew, -⟩ :=
        Validation.checkDomainGates_eq_ok hGates
      unfold Validation.checkRenew at hRenew
      rw [if_pos hType] at hRenew
      obtain ⟨_, -, hTrusted⟩ := bind_eq_ok.mp hRenew
      obtain ⟨regKey, hMem, hSame⟩ := List.any_eq_true.mp (requireNaming_eq_ok.mp hTrusted)
      rw [← hexEncode_injective (beq_iff_eq.mp hSame)]
      exact hMem
  · intro hType
    have hRedeems := (Validation.checkForm_eq_ok hForm).1 (.inr (.inl hType))
    have hReplaces := replaces_of_effect hEffect (by simp [Writes, hType])
    obtain ⟨hFound, -⟩ := hReplaces.own (.inr (.inl hType)) hRedeems
    obtain ⟨found, hFind, hName⟩ := redeemsOwnDomain_eq_true.mp hFound
    obtain ⟨-, -, hHere | hReal⟩ := h.traced.of_getTxByID h.named hInj (order.perm _) hFind
    · exact ⟨found, hName ▸ hHere⟩
    · exact hName ▸ h.traced.getDomain_of_real hReal

theorem shown_nil : Shown env names [] (.newIndexOverlay {}) where
  lawful := along_nil
  settled := along_nil
  shows d hd := by
    refine ⟨standing_nil d hd, tallies_nil.owner d hd, ?_⟩
    exact tallies_nil.price d hd

theorem settled_of_effect {pos : Position} {e : Effect}
    (hShows : Shows env.E e.before.im e.tx.domainName (replay (actsOf log) e.tx.domainName))
    (hEffect : DomainEffect env.E pos e.tx e.before e.after none) : Settled log e := by
  constructor
  · intro hType
    generalize hAfter : e.after = st' at hEffect
    cases hEffect with
    | skipped h => rcases h with h | h | h | h | ⟨_, _, h⟩ <;> simp [h] at hType
    | registered h | committed h | revealed h | revoked h | updated h | renewed h | listed h
    | delisted h | transferred h => simp [h] at hType
    | bought _ hActive _ hOther _ paid hPaid =>
      obtain ⟨t, hEntry, -⟩ := getDomain_of_inActivePhase hActive
      obtain ⟨deed, hDeed, -, -, hHolder, hPrice⟩ := deed_of_getDomain hShows hEntry
      rw [hHolder, Option.getD_some] at hOther ⊢
      exact ⟨deed, _, hDeed, hPrice, moved_of_debit hPaid fun h => hOther (hexEncode_injective h)⟩
  · intro hType
    rcases hEffect.ledger with hSame | ⟨hBuy, -⟩
    · exact hSame
    · exact absurd hBuy hType

/-- One more transaction that takes effect. -/
theorem Shown.step {pos : Position} {e : Effect} (h : Shown env names log e.before.im)
    (hPos : pos.currentSlot = e.block.slotNumber ∧ pos.slotsPerDay = env.slotsPerDay)
    (hName : e.tx.domainName ∈ names)
    (hGated : Gated env.E env.trustedRegistries e.tx e.before.im)
    (hEffect : DomainEffect env.E pos e.tx e.before e.after none) :
    Shown env names (log ++ [e]) e.after.im := by
  have hSettled := settled_of_effect (h.shows _ hName) hEffect
  cases hAct : actOf e.tx with
  | none =>
    have hSame : actsOf (log ++ [e]) = actsOf log := by
      rw [actsOf_concat, hAct]
      exact List.append_nil _
    refine ⟨hSame ▸ h.lawful, along_concat.mpr ⟨h.settled, hSettled⟩, fun d hd => ?_⟩
    rw [hSame]
    exact shows_of_no_act hAct hGated.notRegister hEffect (h.shows d hd)
  | some act =>
    have hNext : actsOf (log ++ [e]) = actsOf log ++ [(e.block.slotNumber, act)] := by
      rw [actsOf_concat, hAct]
      rfl
    have hAllowed := allowed_of_effect (h.shows _ hName) hGated hEffect hAct
    rw [hPos.1, hPos.2] at hAllowed
    refine ⟨?_, along_concat.mpr ⟨h.settled, hSettled⟩, fun d hd => ?_⟩
    · rw [hNext]
      exact along_concat.mpr ⟨h.lawful, hAllowed⟩
    · rw [hNext, replay_concat]
      exact shows_of_effect (h.shows d hd) hGated.notRegister hEffect hAct hAllowed

theorem shown_of_effectLog (hLog : EffectLog env blocks s log)
    (hInj : Set.InjOn env.E.sha256 names)
    (hNames : ∀ b ∈ blocks, ∀ tx ∈ b.transactions, tx.domainName ∈ names) :
    Shown env names log (.newIndexOverlay s.index) := by
  refine hLog.invariant (P := fun _ log o => Shown env names log o) shown_nil ?_ ?_ hInj hNames
  · intro blocks s b order before tx st st' log hSite hShown hEffect
    exact @Shown.step _ _ _ _ ⟨blocks.length, b, tx, st, st'⟩ hShown ⟨rfl, rfl⟩ hSite.name
      (hSite.gated hInj hEffect) hEffect
  · intro height log o im hAnswers hShown
    exact ⟨hShown.lawful, hShown.settled, fun d hd => shows_of_same (hAnswers.domain d hd)
      (hAnswers.owner d hd) (hAnswers.price d hd) (hShown.shows d hd)⟩

theorem deedOf_eq_of_shows {E : External} {im : IndexManager} {d : Bytes}
    {deed : Option (Deed Bytes Record Int64)} (h : Shows E (.newIndexOverlay im) d deed) :
    deedOf E im d = deed := by
  unfold deedOf
  cases deed with
  | none =>
    have hEntry : im.getDomain E d = none := h.1
    rw [hEntry]
    rfl
  | some deed =>
    obtain ⟨⟨t, hEntry, hData, hExpiry⟩, hOwner, hPrice⟩ := h
    have hEntry' : im.getDomain E d = some t := hEntry
    have hOwner' : im.getOwner E d = some deed.owner := hOwner
    have hPrice' : (im.getListPrice E d).toNat = deed.price := hPrice
    rw [hEntry', Option.bind_some, hOwner', Option.map_some, hData, hExpiry, hPrice']

/-- What takes effect in further blocks. -/
theorem effectLog_continues {tip : Block} {after : List Block} {s' : ChainState}
    (hLog : EffectLog env blocks s log) (hTip : blocks.getLast? = some tip)
    (hRun : Continues env s tip after s') :
    ∃ events, EffectLog env (blocks ++ after) s' (log ++ events) ∧
      ∀ e ∈ events, e.block ∈ after ∧ e.tx ∈ e.block.transactions := by
  induction hRun with
  | refl => exact ⟨[], by simpa using hLog, by simp⟩
  | @add after s₁ latest b order slotLeader staged run last accepted ih =>
    obtain ⟨events, hMore, hFrom⟩ := ih
    obtain ⟨-, -, ⟨ledger, final, hLedger, hDomain, -⟩, -⟩ := validateBlock_eq_ok accepted
    obtain ⟨new, hPass⟩ := exists_passEffects (blocks ++ after).length hDomain
    have hNext := EffectLog.add hMore (getLast?_append_of_cons hTip last) accepted hLedger hPass
    rw [List.append_assoc, List.append_assoc] at hNext
    refine ⟨events ++ new, hNext, fun e he => ?_⟩
    rcases List.mem_append.mp he with hOld | hNew
    · exact ⟨List.mem_append_left _ (hFrom e hOld).1, (hFrom e hOld).2⟩
    · obtain ⟨-, hBlock, hTx⟩ := mem_of_passEffects hPass e hNew
      rw [hBlock]
      exact ⟨by simp, hTx⟩

end Histories

/-! ## Quiet possession -/

/-- Two indexes with the same records for a domain, both in its term, resolve it alike. -/
theorem resolveLocally_congr {E : External} {im im' : IndexManager} {slot slotsPerDay : Int64}
    {d queryType : Bytes} {reg reg' : Transaction} (hEntry : im.getDomain E d = some reg)
    (hEntry' : im'.getDomain E d = some reg') (hRecords : reg'.records = reg.records)
    (hSlot : slot < reg.expirySlot) (hSlot' : slot < reg'.expirySlot)
    (hDirect : queryType = utf8 "CNAME" ∨ hasCNAME reg.records = false) (now : Int)
    (cache : Cache) :
    resolveLocally E im' slot slotsPerDay d queryType now cache =
      resolveLocally E im slot slotsPerDay d queryType now cache := by
  have hPlain : ¬ (queryType ≠ utf8 "CNAME" ∧ hasCNAME reg.records = true) := by
    rintro ⟨hType, hCname⟩
    rcases hDirect with hSame | hNone
    · exact hType hSame
    · exact absurd (hCname.symm.trans hNone) (by decide)
  unfold resolveLocally
  rw [hEntry, hEntry']
  dsimp only
  rw [getDomainPhase_eq_active.mpr hSlot, getDomainPhase_eq_active.mpr hSlot', hRecords,
    if_neg hPlain, if_neg hPlain]

/-! ## A domain that a registry renews -/

namespace StandIn

open Network.StandIn

def leaseRecords : List Record := [{ type := utf8 "A", value := utf8 "10.0.0.1", priority := 0 }]

/-- The registry registers the domain for Alice. -/
def leaseTx : Transaction :=
  registryTx { revealTx 2 1 1 [1] 1000 with recipient := utf8 "alice", records := leaseRecords }

/-- It renews the domain, with records of its own. -/
def renewalTx : Transaction :=
  registryTx { tid := 3, type := .renew, nonce := 2, redeemsTxID := 2, expirySlot := 2000,
               domainName := utf8 "a.bdns",
               records := [{ type := utf8 "A", value := utf8 "10.0.0.2", priority := 0 }] }

def leaseLog : List (Int64 × List Transaction) := [(1, [commitTx 1 0 [1]]), (4, [leaseTx])]

end StandIn

/-! ## Theorems -/

/-- **The index is a register of names.** Along every accepted chain, the transactions that took
effect are acts that were allowed when they were done, each sale paid the owner of the deed its
price, and the index says of every domain what the replay of the acts says. -/
theorem index_is_a_register {env : Env} {names : Set Bytes} {blocks : List Block} {s : ChainState}
    {log : List Effect} (hLog : EffectLog env blocks s log) (hInj : Set.InjOn env.E.sha256 names)
    (hNames : ∀ b ∈ blocks, ∀ tx ∈ b.transactions, tx.domainName ∈ names) :
    Lawful (domainTerms env.slotsPerDay) (· ∈ env.trustedRegistries) (actsOf log) ∧
      Along Settled log ∧ ∀ d ∈ names, deedOf env.E s.index d = replay (actsOf log) d := by
  obtain ⟨hLawful, hSettled, hShows⟩ := shown_of_effectLog hLog hInj hNames
  exact ⟨hLawful, hSettled, fun d hd => deedOf_eq_of_shows (hShows d hd)⟩

open Network.StandIn StandIn in
/-- Alice's records outlast the renewal. -/
theorem index_is_a_register_lease :
    ∃ log, EffectLog registryEnv ([registryGenesis] ++
        logBlocks (genesisState registryEnv, registryGenesis) (leaseLog ++ [(5, [renewalTx])]))
        (afterLog (leaseLog ++ [(5, [renewalTx])])).1 log ∧
      Lawful (domainTerms 1) (· ∈ [utf8 "registry"]) (actsOf log) ∧
      replay (actsOf log) (utf8 "a.bdns") = some ⟨utf8 "alice", leaseRecords, 2000, 0⟩ := by
  obtain ⟨hEffects, hAccepted, hDeed, hNames⟩ :
      (logEffects 1 (genesisState registryEnv, registryGenesis)
          (leaseLog ++ [(5, [renewalTx])])).isOk = true ∧
        logAccepted (genesisState registryEnv, registryGenesis)
          (leaseLog ++ [(5, [renewalTx])]) = true ∧
        deedOf registryEnv.E (afterLog (leaseLog ++ [(5, [renewalTx])])).1.index (utf8 "a.bdns") =
          some ⟨utf8 "alice", leaseRecords, 2000, 0⟩ ∧
        ∀ b ∈ [registryGenesis] ++ logBlocks (genesisState registryEnv, registryGenesis)
            (leaseLog ++ [(5, [renewalTx])]),
          ∀ tx ∈ b.transactions, tx.domainName ∈ {d | d ∈ [[], utf8 "a.bdns"]} := by
    decide +kernel
  obtain ⟨log, hLog⟩ := exists_eq_ok hEffects
  have hHistory := effectLog_afterLog hAccepted hLog
  obtain ⟨hLawful, -, hReplay⟩ := index_is_a_register hHistory injOn_domain hNames
  exact ⟨log, hHistory, hLawful, (hReplay _ (by simp)).symm.trans hDeed⟩

end Bdns.Safety
