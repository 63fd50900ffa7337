import Bdns.Safety.History

/-!
# Domains for sale

The list price of a domain is what the last LIST, DELIST, BUY or TRANSFER of it left, and its owner
is whom the last REVEAL, BUY or TRANSFER named. A REVEAL changes the owner but not the price, so it
is the one transaction that puts up for sale what its owner did not list.
-/

namespace Bdns.Safety

open Lib Blockchain Network Index

/-! ## Who owns a domain and for how much it is listed -/

/-- The types that change the owner of a domain. REGISTER is in no accepted block. -/
def Acquires (tx : Transaction) : Prop :=
  tx.type = .reveal ∨ tx.type = .buy ∨ tx.type = .transfer

/-- The types that change the list price of a domain. -/
def SetsPrice (tx : Transaction) : Prop :=
  tx.type = .list ∨ tx.type = .delist ∨ tx.type = .buy ∨ tx.type = .transfer

instance : DecidablePred Acquires := fun tx =>
  inferInstanceAs (Decidable (tx.type = .reveal ∨ tx.type = .buy ∨ tx.type = .transfer))

instance : DecidablePred SetsPrice := fun tx =>
  inferInstanceAs
    (Decidable (tx.type = .list ∨ tx.type = .delist ∨ tx.type = .buy ∨ tx.type = .transfer))

def newOwner (tx : Transaction) : Bytes := if tx.type = .buy then tx.ownerKey else tx.recipient

def newPrice (tx : Transaction) : UInt64 := if tx.type = .list then tx.listPrice else 0

section Steps

variable {E : External} {pos : Position} {tx : Transaction} {st st' : DomainState}

theorem getOwner_of_effect (hEffect : DomainEffect E pos tx st st' none)
    (hRegister : tx.type ≠ .register) (d : Bytes) : st'.im.getOwner E d =
      if Acquires tx ∧ tx.domainName = d then some (newOwner tx) else st.im.getOwner E d := by
  cases hEffect with
  | skipped hType =>
    rcases hType with h | h | h | h | ⟨_, _, h⟩ <;> simp [Acquires, h]
  | committed h => simp [Acquires, h]
  | registered h => exact absurd h hRegister
  | revealed h =>
    dsimp only
    rw [IndexOverlay.getOwner_markAsSpent, IndexOverlay.getOwner_setOwner, addDomain,
      IndexOverlay.getOwner_add]
    simp [Acquires, newOwner, h]
  | revoked h => simp [Acquires, h, getOwner_revokeDomain]
  | updated h | renewed h => simp [Acquires, h, getOwner_replaceDomain]
  | listed h | delisted h =>
    dsimp only
    rw [IndexOverlay.getOwner_setListPrice]
    simp [Acquires, h]
  | bought h | transferred h =>
    dsimp only [buyDomain]
    rw [IndexOverlay.getOwner_setListPrice, IndexOverlay.getOwner_setOwner]
    simp [Acquires, newOwner, h]

theorem getListPrice_of_effect (hEffect : DomainEffect E pos tx st st' none) (d : Bytes) :
    st'.im.getListPrice E d =
      if SetsPrice tx ∧ tx.domainName = d then newPrice tx else st.im.getListPrice E d := by
  cases hEffect with
  | skipped hType =>
    rcases hType with h | h | h | h | ⟨_, _, h⟩ <;> simp [SetsPrice, h]
  | committed h => simp [SetsPrice, h]
  | registered h =>
    dsimp only
    rw [IndexOverlay.getListPrice_setOwner, addDomain, IndexOverlay.getListPrice_add]
    simp [SetsPrice, h]
  | revealed h =>
    dsimp only
    rw [IndexOverlay.getListPrice_markAsSpent, IndexOverlay.getListPrice_setOwner, addDomain,
      IndexOverlay.getListPrice_add]
    simp [SetsPrice, h]
  | revoked h => simp [SetsPrice, h, getListPrice_revokeDomain]
  | updated h | renewed h => simp [SetsPrice, h, getListPrice_replaceDomain]
  | listed h | delisted h =>
    dsimp only
    rw [IndexOverlay.getListPrice_setListPrice]
    simp [SetsPrice, newPrice, h]
  | bought h | transferred h =>
    dsimp only [buyDomain]
    rw [IndexOverlay.getListPrice_setListPrice, IndexOverlay.getListPrice_setOwner]
    simp [SetsPrice, newPrice, h]

end Steps

/-- The owner of every domain and its price are what the last events left that change them. -/
structure Tallies (E : External) (names : Set Bytes) (log : List Effect) (o : IndexOverlay) :
    Prop where
  owner : ∀ d ∈ names, o.getOwner E d =
    (effectsOf Acquires d log).getLast?.map fun e => newOwner e.tx
  price : ∀ d ∈ names, o.getListPrice E d =
    ((effectsOf SetsPrice d log).getLast?.map fun e => newPrice e.tx).getD 0

/-- What is known of an event, given those before it. -/
structure Traded (env : Env) (names : Set Bytes) (prior : List Effect) (e : Effect) : Prop where
  effect : ∃ order i, DomainEffect env.E
    (env.position order e.block.slotNumber e.block.index i) e.tx e.before e.after none
  signed : e.tx.type ≠ .revoke → verifySignature env.E e.tx.ownerKey e.tx = true
  tallies : Tallies env.E names prior e.before.im

section Tallies

variable {env : Env} {names : Set Bytes} {blocks : List Block} {s : ChainState} {log : List Effect}

theorem tallies_nil : Tallies env.E names [] (.newIndexOverlay {}) where
  owner d _ := by
    change ({} : IndexManager).getOwner env.E d = none
    rw [IndexManager.getOwner, AVLTree.search_empty]
    rfl
  price d _ := by
    change ({} : IndexManager).getListPrice env.E d = 0
    rw [IndexManager.getListPrice, AVLTree.search_empty]
    rfl

theorem Tallies.step {pos : Position} {e : Effect} (h : Tallies env.E names log e.before.im)
    (hEffect : DomainEffect env.E pos e.tx e.before e.after none)
    (hRegister : e.tx.type ≠ .register) : Tallies env.E names (log ++ [e]) e.after.im where
  owner d hd := by
    rw [getOwner_of_effect hEffect hRegister, effectsOf_concat, h.owner d hd]
    split
    · rw [List.getLast?_concat, Option.map_some]
    · rw [List.append_nil]
  price d hd := by
    rw [getListPrice_of_effect hEffect, effectsOf_concat, h.price d hd]
    split
    · rw [List.getLast?_concat, Option.map_some, Option.getD_some]
    · rw [List.append_nil]

theorem traded_of_effectLog (hLog : EffectLog env blocks s log) (hInj : Set.InjOn env.E.sha256 names)
    (hNames : ∀ b ∈ blocks, ∀ tx ∈ b.transactions, tx.domainName ∈ names) :
    Along (Traded env names) log ∧ Tallies env.E names log (.newIndexOverlay s.index) := by
  refine hLog.invariant (P := fun _ log o => Along (Traded env names) log ∧
    Tallies env.E names log o) ⟨along_nil, tallies_nil⟩ ?_ ?_ hInj hNames
  · rintro blocks s b order before tx st st' log hSite ⟨hAlong, hTallies⟩ hEffect
    obtain ⟨sh, sh', -, hValid⟩ := hSite.valid
    have hSigned : tx.type ≠ .revoke → verifySignature env.E tx.ownerKey tx = true := by
      intro hType
      exact Validation.verifySignature_of_validateTx hValid
        fun hKey => hType (Validation.type_of_ownerless hValid hKey)
    exact ⟨along_concat.mpr ⟨hAlong, ⟨order, before.length, hEffect⟩, hSigned, hTallies⟩,
      hTallies.step hEffect (Validation.type_ne_register_of_validateTx hValid)⟩
  · rintro height log o im hAnswers ⟨hAlong, hTallies⟩
    exact ⟨hAlong, fun d hd => (hAnswers.owner d hd).trans (hTallies.owner d hd),
      fun d hd => (hAnswers.price d hd).trans (hTallies.price d hd)⟩

end Tallies

/-! ## Consent -/

/-- The listing of a domain is its owner's: the last LIST of the domain named the price and was
signed by the owner, whom the last change before it had made the owner, and since then the domain
was not taken off the market or given to anyone. -/
def Consented (E : External) (log : List Effect) (d : Bytes) (owner : Option Bytes)
    (price : UInt64) : Prop :=
  ∃ l₁ e l₂ a, log = l₁ ++ e :: l₂ ∧ e.tx.type = .list ∧ e.tx.domainName = d ∧
    e.tx.listPrice = price ∧ owner = some e.tx.ownerKey ∧
    verifySignature E e.tx.ownerKey e.tx = true ∧
    (effectsOf Acquires d l₁).getLast? = some a ∧ newOwner a.tx = e.tx.ownerKey ∧
    ∀ u ∈ l₂, u.tx.domainName = d →
      u.tx.type ∉ [.list, .delist, .buy, .transfer, .reveal]

section Consent

variable {env : Env} {names : Set Bytes} {log : List Effect} {o : IndexOverlay} {d : Bytes}

/-- A domain for sale was listed by the owner of that time, and nothing changed its price since. -/
theorem listed_of_price (hTraded : Along (Traded env names) log)
    (hTallies : Tallies env.E names log o) (hd : d ∈ names) (hPrice : 0 < o.getListPrice env.E d) :
    ∃ l₁ e l₂, log = l₁ ++ e :: l₂ ∧ e.tx.type = .list ∧ e.tx.domainName = d ∧
      e.tx.listPrice = o.getListPrice env.E d ∧ verifySignature env.E e.tx.ownerKey e.tx = true ∧
      (effectsOf Acquires d l₁).getLast?.map (fun a => newOwner a.tx) = some e.tx.ownerKey ∧
      ∀ u ∈ l₂, SetsPrice u.tx → u.tx.domainName ≠ d := by
  rw [hTallies.price d hd] at hPrice ⊢
  cases hLast : (effectsOf SetsPrice d log).getLast? with
  | none => simp [hLast] at hPrice
  | some e =>
    rw [hLast, Option.map_some, Option.getD_some] at hPrice
    obtain ⟨l₁, l₂, hSplit, ⟨-, rfl⟩, hNone⟩ := getLast?_effectsOf.mp hLast
    have hAt := hTraded l₁ e l₂ hSplit
    have hList : e.tx.type = .list := by
      by_contra hOther
      rw [newPrice, if_neg hOther] at hPrice
      exact absurd hPrice (by decide)
    obtain ⟨order, i, hEffect⟩ := hAt.effect
    refine ⟨l₁, e, l₂, hSplit, hList, rfl, ?_, hAt.signed (by simp [hList]), ?_, hNone⟩
    · rw [Option.map_some, Option.getD_some, newPrice, if_pos hList]
    · rw [← hAt.tallies.owner _ hd]
      generalize e.after = st' at hEffect
      cases hEffect with
      | listed _ _ hOwner => exact hOwner
      | skipped hType => rcases hType with h | h | h | h | ⟨_, _, h⟩ <;> simp [h] at hList
      | registered h | committed h | revealed h | revoked h | updated h | renewed h | delisted h
      | bought h | transferred h => simp [h] at hList

/-- With no REVEAL since the LIST, the owner of that time is still the owner. -/
theorem consented_of_no_reveal {l₁ l₂ : List Effect} {e : Effect}
    (hTallies : Tallies env.E names (l₁ ++ e :: l₂) o) (hd : d ∈ names) (hList : e.tx.type = .list)
    (hName : e.tx.domainName = d) (hSigned : verifySignature env.E e.tx.ownerKey e.tx = true)
    (hOwner : (effectsOf Acquires d l₁).getLast?.map (fun a => newOwner a.tx) =
      some e.tx.ownerKey)
    (hKept : ∀ u ∈ l₂, SetsPrice u.tx → u.tx.domainName ≠ d)
    (hReveal : ∀ u ∈ l₂, u.tx.type = .reveal → u.tx.domainName ≠ d) :
    Consented env.E (l₁ ++ e :: l₂) d (o.getOwner env.E d) e.tx.listPrice := by
  have hLater : effectsOf Acquires d (e :: l₂) = [] := by
    refine List.eq_nil_iff_forall_not_mem.mpr fun u hu => ?_
    obtain ⟨hu, hAcquires, hOf⟩ := mem_effectsOf.mp hu
    rcases List.mem_cons.mp hu with rfl | hu
    · simp [Acquires, hList] at hAcquires
    · rcases hAcquires with h | h | h
      · exact hReveal u hu h hOf
      · exact hKept u hu (.inr (.inr (.inl h))) hOf
      · exact hKept u hu (.inr (.inr (.inr h))) hOf
  obtain ⟨a, hLast, hNew⟩ := Option.map_eq_some_iff.mp hOwner
  refine ⟨l₁, e, l₂, a, rfl, hList, hName, rfl, ?_, hSigned, hLast, hNew, fun u hu hOf hType => ?_⟩
  · rw [hTallies.owner d hd, effectsOf_append, hLater, List.append_nil, hOwner]
  · simp only [List.mem_cons, List.not_mem_nil, or_false] at hType
    rcases hType with h | h | h | h | h
    · exact hKept u hu (.inl h) hOf
    · exact hKept u hu (.inr (.inl h)) hOf
    · exact hKept u hu (.inr (.inr (.inl h))) hOf
    · exact hKept u hu (.inr (.inr (.inr h))) hOf
    · exact hReveal u hu h hOf

end Consent

/-- LIST and REVEAL, of which the later one tells whose price it is. -/
def ListsOrReveals (tx : Transaction) : Prop := tx.type = .list ∨ tx.type = .reveal

instance : DecidablePred ListsOrReveals := fun tx =>
  inferInstanceAs (Decidable (tx.type = .list ∨ tx.type = .reveal))

/-- **When a domain is for sale by consent of its owner.** In a state where the domain is for sale,
it is listed by consent of its owner if and only if no REVEAL of it took effect since its last LIST.
That is so if every REVEAL of the domain took effect while the domain was not for sale. -/
theorem for_sale_by_consent_iff {env : Env} {names : Set Bytes} {blocks : List Block}
    {s : ChainState} {log : List Effect} {d : Bytes} (hLog : EffectLog env blocks s log)
    (hInj : Set.InjOn env.E.sha256 names)
    (hNames : ∀ b ∈ blocks, ∀ tx ∈ b.transactions, tx.domainName ∈ names) (hd : d ∈ names)
    (hForSale : s.index.isForSale env.E d = true) :
    (Consented env.E log d (s.index.getOwner env.E d) (s.index.getListPrice env.E d) ↔
      ∃ e, (effectsOf ListsOrReveals d log).getLast? = some e ∧ e.tx.type = .list) ∧
    ((∀ e ∈ log, e.tx.type = .reveal → e.tx.domainName = d →
      e.before.im.isForSale env.E d = false) →
      Consented env.E log d (s.index.getOwner env.E d) (s.index.getListPrice env.E d)) := by
  obtain ⟨hTraded, hTallies⟩ := traded_of_effectLog hLog hInj hNames
  rw [IndexManager.isForSale_eq, decide_eq_true_eq] at hForSale
  obtain ⟨l₁, e, l₂, rfl, hList, hName, hPrice, hSigned, hOwner, hKept⟩ :=
    listed_of_price hTraded hTallies hd hForSale
  have hConsent : (∀ u ∈ l₂, u.tx.type = .reveal → u.tx.domainName ≠ d) →
      Consented env.E (l₁ ++ e :: l₂) d (s.index.getOwner env.E d)
        (s.index.getListPrice env.E d) := by
    intro hReveal
    have h := consented_of_no_reveal hTallies hd hList hName hSigned hOwner hKept hReveal
    rw [hPrice] at h
    exact h
  refine ⟨⟨?_, ?_⟩, fun hFree => hConsent fun u hu hType hOf => ?_⟩
  · rintro ⟨l₁', e', l₂', a, hSplit, hList', hName', -, -, -, -, -, hNone⟩
    refine ⟨e', getLast?_effectsOf.mpr ⟨l₁', l₂', hSplit, ⟨.inl hList', hName'⟩, ?_⟩, hList'⟩
    rintro u hu (h | h) hOf
    · exact hNone u hu hOf (by simp [h])
    · exact hNone u hu hOf (by simp [h])
  · rintro ⟨w, hLast, hListLast⟩
    refine hConsent fun u hu hType hOf => ?_
    -- the last LIST or REVEAL would come after this REVEAL and be a LIST
    obtain ⟨m₁, m₂, rfl⟩ := List.append_of_mem hu
    obtain ⟨w', hMem, hLast'⟩ :=
      @exists_last_from ListsOrReveals _ d u (l₁ ++ e :: m₁) m₂ ⟨.inr hType, hOf⟩
    rw [List.append_assoc, List.cons_append] at hLast'
    obtain rfl := Option.some.inj (hLast.symm.trans hLast')
    obtain ⟨-, -, hNameLast⟩ := mem_effectsOf.mp (List.mem_of_getLast? hLast)
    exact hKept w (List.mem_append_right _ hMem) (.inl hListLast) hNameLast
  · -- this REVEAL found the price that the LIST had set
    obtain ⟨m₁, m₂, rfl⟩ := List.append_of_mem hu
    have hAt := hTraded (l₁ ++ e :: m₁) u m₂ (by simp)
    have hLast : (effectsOf SetsPrice d (l₁ ++ e :: m₁)).getLast? = some e :=
      getLast?_effectsOf.mpr ⟨l₁, m₁, rfl, ⟨.inl hList, hName⟩,
        fun v hv => hKept v (List.mem_append_left _ hv)⟩
    have hFound : u.before.im.getListPrice env.E d = s.index.getListPrice env.E d := by
      rw [hAt.tallies.price d hd, hLast, Option.map_some, Option.getD_some, newPrice, if_pos hList]
      exact hPrice
    have hNot := hFree u (by simp) hType hOf
    rw [IndexOverlay.isForSale_eq, hFound] at hNot
    exact of_decide_eq_false hNot hForSale

namespace StandIn

open Network.StandIn

/-- A LIST of the domain by the registry. -/
def listTx (tid : Int64) (nonce : UInt64) (listPrice : UInt64) : Transaction :=
  registryTx { tid, type := .list, nonce, listPrice, domainName := utf8 "a.bdns" }

def listedLog : List (Int64 × List Transaction) :=
  [(1, [commitTx 1 0 [1]]), (4, [revealTx 2 1 1 [1] 1000]), (5, [listTx 3 2 5])]

/-- The domain is listed at price 5 before it expires at slot 10. It is purged from slot 40 on, and
the registry registers it for another owner at slot 46. -/
def relistedLog : List (Int64 × List Transaction) :=
  [(1, [commitTx 1 0 [1]]), (4, [revealTx 2 1 1 [1] 10]), (5, [listTx 3 2 5]),
    (43, [commitTx 4 3 [2]]),
    (46, [registryTx { revealTx 5 4 4 [2] 1000 with recipient := utf8 "buyer" }])]

end StandIn

open Network.StandIn StandIn in
theorem for_sale_by_consent_iff_listed :
    ∃ log, EffectLog registryEnv ([registryGenesis] ++
        logBlocks (genesisState registryEnv, registryGenesis) listedLog) (afterLog listedLog).1 log ∧
      Consented registryEnv.E log (utf8 "a.bdns") (some (utf8 "registry")) 5 := by
  obtain ⟨hEffects, hAccepted, hOwner, hPrice, hForSale, hNames⟩ :
      (logEffects 1 (genesisState registryEnv, registryGenesis) listedLog).toOption.any
          (fun log => log.all fun e => decide (e.tx.type = .reveal →
            e.tx.domainName = utf8 "a.bdns" →
              e.before.im.isForSale registryEnv.E (utf8 "a.bdns") = false)) = true ∧
        logAccepted (genesisState registryEnv, registryGenesis) listedLog = true ∧
        (afterLog listedLog).1.index.getOwner registryEnv.E (utf8 "a.bdns") =
          some (utf8 "registry") ∧
        (afterLog listedLog).1.index.getListPrice registryEnv.E (utf8 "a.bdns") = 5 ∧
        (afterLog listedLog).1.index.isForSale registryEnv.E (utf8 "a.bdns") = true ∧
        ∀ b ∈ [registryGenesis] ++ logBlocks (genesisState registryEnv, registryGenesis) listedLog,
          ∀ tx ∈ b.transactions, tx.domainName ∈ {d | d ∈ [[], utf8 "a.bdns"]} := by
    decide +kernel
  obtain ⟨log, hLog, hAll⟩ := exists_of_any hEffects
  have hHistory := effectLog_afterLog hAccepted hLog
  have hConsent := (for_sale_by_consent_iff hHistory injOn_domain hNames (by decide +kernel)
    hForSale).2 fun e he => of_decide_eq_true (List.all_eq_true.mp hAll e he)
  rw [hOwner, hPrice] at hConsent
  exact ⟨log, hHistory, hConsent⟩

open Network.StandIn StandIn in
/-- The new owner never listed the domain, and it is for sale at the price of the old one. -/
theorem revealed_domain_for_sale :
    ∃ log, EffectLog registryEnv ([registryGenesis] ++
        logBlocks (genesisState registryEnv, registryGenesis) relistedLog)
        (afterLog relistedLog).1 log ∧
      (afterLog relistedLog).1.index.isForSale registryEnv.E (utf8 "a.bdns") = true ∧
      (afterLog relistedLog).1.index.getListPrice registryEnv.E (utf8 "a.bdns") = 5 ∧
      (afterLog relistedLog).1.index.getOwner registryEnv.E (utf8 "a.bdns") =
        some (utf8 "buyer") ∧
      log.map (fun e => e.tx.type) = [.commit, .reveal, .list, .commit, .reveal] ∧
      ∀ e ∈ log, e.tx.ownerKey ≠ utf8 "buyer" := by
  obtain ⟨hEffects, hAccepted, hForSale, hPrice, hOwner⟩ :
      (logEffects 1 (genesisState registryEnv, registryGenesis) relistedLog).toOption.any
          (fun log => decide (log.map (fun e => e.tx.type) =
              [.commit, .reveal, .list, .commit, .reveal]) &&
            log.all fun e => decide (e.tx.ownerKey ≠ utf8 "buyer")) = true ∧
        logAccepted (genesisState registryEnv, registryGenesis) relistedLog = true ∧
        (afterLog relistedLog).1.index.isForSale registryEnv.E (utf8 "a.bdns") = true ∧
        (afterLog relistedLog).1.index.getListPrice registryEnv.E (utf8 "a.bdns") = 5 ∧
        (afterLog relistedLog).1.index.getOwner registryEnv.E (utf8 "a.bdns") =
          some (utf8 "buyer") := by
    decide +kernel
  obtain ⟨log, hLog, hBoth⟩ := exists_of_any hEffects
  obtain ⟨hTypes, hKeys⟩ := Bool.and_eq_true_iff.mp hBoth
  refine ⟨log, effectLog_afterLog hAccepted hLog, hForSale, hPrice, hOwner,
    of_decide_eq_true hTypes, fun e he => ?_⟩
  exact of_decide_eq_true (List.all_eq_true.mp hKeys e he)

end Bdns.Safety
