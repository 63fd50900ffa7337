import Bdns.Network.Resolver

/-!
# Aliases

What `ResolveDomain` finds through CNAME records, without the recursion: a path of distinct active
domains, each with the next one as the target of its first CNAME record, that ends at a domain
without one. `resolveCNAME` walks this path for as long as it has a budget left.
-/

namespace Bdns.Network

open Lib Blockchain Index

section Paths

variable (E : External) (im : IndexManager) (currentSlot slotsPerDay : Int64)

/-- The entry of a domain that is in its active phase. -/
def ActiveEntry (domain : Bytes) (tx : Transaction) : Prop :=
  im.getDomain E domain = some tx ∧ getDomainPhase currentSlot tx.expirySlot slotsPerDay = .active

/-- The domains from the first one to one without a CNAME record, and the entry of the last. -/
inductive AliasPath : Bytes → List Bytes → Transaction → Prop
  | here {domain : Bytes} {tx : Transaction}
      (active : ActiveEntry E im currentSlot slotsPerDay domain tx)
      (plain : filterByType tx.records (utf8 "CNAME") = []) : AliasPath domain [domain] tx
  | next {domain : Bytes} {tx last : Transaction} {cname : Record} {others : List Record}
      {path : List Bytes} (active : ActiveEntry E im currentSlot slotsPerDay domain tx)
      (aliased : filterByType tx.records (utf8 "CNAME") = cname :: others)
      (rest : AliasPath cname.value path last) : AliasPath domain (domain :: path) last

end Paths

section Resolve

variable {E : External} {im : IndexManager} {currentSlot slotsPerDay : Int64}
  {domain queryType : Bytes} {records : List Record} {tx : Transaction}

/-- The recursion as the source has it, with the number of visited domains in place of the
budget. -/
theorem resolveCNAME_eq {visited : List Bytes} :
    resolveCNAME E im currentSlot slotsPerDay queryType (cnameDepthLimit - visited.length) domain
        visited =
      if domain ∈ visited then .error (utf8 "CNAME loop detected involving domain " ++ domain)
      else if cnameDepthLimit ≤ visited.length then
        .error (utf8 "CNAME chain exceeded depth limit of " ++ decimal cnameDepthLimit ++
          utf8 " at domain " ++ domain)
      else
        match im.getDomain E domain with
        | none => .error (utf8 "domain " ++ domain ++ utf8 " not found in B-DNS (CNAME chain)")
        | some tx =>
          let phase := getDomainPhase currentSlot tx.expirySlot slotsPerDay
          if phase ≠ .active then
            .error (utf8 "domain " ++ domain ++ utf8 " is in " ++ phase.text ++
              utf8 " phase (CNAME chain)")
          else
            match filterByType tx.records (utf8 "CNAME") with
            | [] =>
              let filtered := filterByType tx.records queryType
              if filtered.length = 0 then
                .error (utf8 "no " ++ queryType ++ utf8 " records for domain " ++ domain ++
                  utf8 " (CNAME chain)")
              else .ok filtered
            | cname :: _ =>
              resolveCNAME E im currentSlot slotsPerDay queryType
                (cnameDepthLimit - (domain :: visited).length) cname.value (domain :: visited) := by
  by_cases hFull : cnameDepthLimit ≤ visited.length
  · rw [Nat.sub_eq_zero_of_le hFull, resolveCNAME, if_pos hFull]
  · obtain ⟨budget, hBudget⟩ : ∃ budget, cnameDepthLimit - visited.length = budget + 1 :=
      ⟨cnameDepthLimit - visited.length - 1, by omega⟩
    have hRest : cnameDepthLimit - (domain :: visited).length = budget := by
      rw [List.length_cons]
      omega
    rw [hBudget, hRest, if_neg hFull]
    rfl

/-! ## Paths of a domain with a known entry -/

theorem AliasPath.mem_self {path : List Bytes} {last : Transaction}
    (hPath : AliasPath E im currentSlot slotsPerDay domain path last) : domain ∈ path := by
  cases hPath <;> exact List.mem_cons_self

theorem AliasPath.active {path : List Bytes} {last : Transaction}
    (hPath : AliasPath E im currentSlot slotsPerDay domain path last) :
    ∃ tx, ActiveEntry E im currentSlot slotsPerDay domain tx := by
  cases hPath with
  | here hTx _ => exact ⟨_, hTx⟩
  | next hTx _ _ => exact ⟨_, hTx⟩

theorem ActiveEntry.unique {last : Transaction}
    (hLeft : ActiveEntry E im currentSlot slotsPerDay domain tx)
    (hRight : ActiveEntry E im currentSlot slotsPerDay domain last) : tx = last :=
  Option.some.inj (hLeft.1.symm.trans hRight.1)

theorem aliasPath_of_plain {path : List Bytes} {last : Transaction}
    (hTx : ActiveEntry E im currentSlot slotsPerDay domain tx)
    (hPlain : filterByType tx.records (utf8 "CNAME") = []) :
    AliasPath E im currentSlot slotsPerDay domain path last ↔ path = [domain] ∧ last = tx := by
  constructor
  · intro hPath
    cases hPath with
    | here hTx' _ => exact ⟨rfl, hTx'.unique hTx⟩
    | next hTx' hAliased _ =>
      rw [hTx'.unique hTx, hPlain] at hAliased
      cases hAliased
  · rintro ⟨rfl, rfl⟩
    exact .here hTx hPlain

theorem aliasPath_of_aliased {path : List Bytes} {last : Transaction} {cname : Record}
    {others : List Record} (hTx : ActiveEntry E im currentSlot slotsPerDay domain tx)
    (hAliased : filterByType tx.records (utf8 "CNAME") = cname :: others) :
    AliasPath E im currentSlot slotsPerDay domain path last ↔
      ∃ rest, path = domain :: rest ∧
        AliasPath E im currentSlot slotsPerDay cname.value rest last := by
  constructor
  · intro hPath
    cases hPath with
    | here hTx' hPlain =>
      rw [hTx'.unique hTx, hAliased] at hPlain
      cases hPlain
    | next hTx' hAliased' hRest =>
      rw [hTx'.unique hTx, hAliased] at hAliased'
      obtain ⟨rfl, -⟩ := List.cons.inj hAliased'
      exact ⟨_, rfl, hRest⟩
  · rintro ⟨rest, rfl, hRest⟩
    exact .next hTx hAliased hRest

/-! ## One call -/

/-- The last step of both lookups: records of the type, or an error that says there is none. -/
theorem filtered_eq_ok {filtered : List Record} {text : Bytes} :
    (if filtered.length = 0 then (.error text : Except Bytes (List Record)) else .ok filtered) =
      .ok records ↔ filtered = records ∧ records ≠ [] := by
  by_cases hNone : filtered = []
  · simp [hNone]
  · rw [if_neg (mt List.eq_nil_of_length_eq_zero hNone), Except.ok.injEq]
    constructor
    · rintro rfl
      exact ⟨rfl, hNone⟩
    · exact And.left

theorem resolveCNAME_of_plain {budget : Nat} {visited : List Bytes} (hVisited : domain ∉ visited)
    (hTx : ActiveEntry E im currentSlot slotsPerDay domain tx)
    (hPlain : filterByType tx.records (utf8 "CNAME") = []) :
    resolveCNAME E im currentSlot slotsPerDay queryType (budget + 1) domain visited = .ok records ↔
      filterByType tx.records queryType = records ∧ records ≠ [] := by
  rw [resolveCNAME, if_neg hVisited]
  simp only [hTx.1, hTx.2, hPlain, ne_eq, not_true_eq_false, if_false]
  exact filtered_eq_ok

theorem resolveCNAME_of_aliased {budget : Nat} {visited : List Bytes} {cname : Record}
    {others : List Record} (hVisited : domain ∉ visited)
    (hTx : ActiveEntry E im currentSlot slotsPerDay domain tx)
    (hAliased : filterByType tx.records (utf8 "CNAME") = cname :: others) :
    resolveCNAME E im currentSlot slotsPerDay queryType (budget + 1) domain visited =
      resolveCNAME E im currentSlot slotsPerDay queryType budget cname.value
        (domain :: visited) := by
  rw [resolveCNAME, if_neg hVisited]
  simp only [hTx.1, hTx.2, hAliased, ne_eq, not_true_eq_false, if_false]

theorem activeEntry_of_resolveCNAME {budget : Nat} {visited : List Bytes}
    (hOk : resolveCNAME E im currentSlot slotsPerDay queryType budget domain visited =
      .ok records) :
    ∃ tx, ActiveEntry E im currentSlot slotsPerDay domain tx := by
  unfold resolveCNAME at hOk
  split at hOk
  · cases hOk
  · split at hOk
    · cases hOk
    · split at hOk
      · cases hOk
      · rename_i tx hTx
        refine ⟨tx, hTx, ?_⟩
        by_contra hPhase
        simp [hPhase] at hOk

/-- What the recursion returns, for any budget. -/
theorem resolveCNAME_eq_ok {budget : Nat} {visited : List Bytes} :
    resolveCNAME E im currentSlot slotsPerDay queryType budget domain visited = .ok records ↔
      ∃ path last, AliasPath E im currentSlot slotsPerDay domain path last ∧ path.Nodup ∧
        (∀ d ∈ path, d ∉ visited) ∧ path.length ≤ budget ∧
        filterByType last.records queryType = records ∧ records ≠ [] := by
  induction budget generalizing domain visited with
  | zero =>
    rw [resolveCNAME]
    constructor
    · intro hOk
      split at hOk <;> cases hOk
    · rintro ⟨path, last, hPath, -, -, hLength, -⟩
      have hNone : path = [] := List.eq_nil_of_length_eq_zero (Nat.le_zero.mp hLength)
      rw [hNone] at hPath
      cases hPath
  | succ budget ih =>
    by_cases hVisited : domain ∈ visited
    · rw [resolveCNAME, if_pos hVisited]
      constructor
      · intro hOk
        cases hOk
      · rintro ⟨path, last, hPath, -, hFresh, -⟩
        exact absurd hVisited (hFresh domain hPath.mem_self)
    by_cases hActive : ∃ tx, ActiveEntry E im currentSlot slotsPerDay domain tx
    · obtain ⟨tx, hTx⟩ := hActive
      cases hAlias : filterByType tx.records (utf8 "CNAME") with
      | nil =>
        rw [resolveCNAME_of_plain hVisited hTx hAlias]
        constructor
        · rintro ⟨hRecords, hSome⟩
          exact ⟨[domain], tx, .here hTx hAlias, List.nodup_singleton _,
            by simpa using hVisited, by simp, hRecords, hSome⟩
        · rintro ⟨path, last, hPath, -, -, -, hRecords, hSome⟩
          obtain ⟨-, rfl⟩ := (aliasPath_of_plain hTx hAlias).mp hPath
          exact ⟨hRecords, hSome⟩
      | cons cname others =>
        rw [resolveCNAME_of_aliased hVisited hTx hAlias, ih]
        constructor
        · rintro ⟨path, last, hPath, hNodup, hFresh, hLength, hRecords⟩
          refine ⟨domain :: path, last, .next hTx hAlias hPath, ?_, ?_, ?_, hRecords⟩
          · exact List.nodup_cons.mpr ⟨fun h => hFresh domain h List.mem_cons_self, hNodup⟩
          · intro d hd
            rcases List.mem_cons.mp hd with rfl | hd
            · exact hVisited
            · exact fun h => hFresh d hd (List.mem_cons_of_mem _ h)
          · exact Nat.succ_le_succ hLength
        · rintro ⟨path, last, hPath, hNodup, hFresh, hLength, hRecords⟩
          obtain ⟨rest, rfl, hRest⟩ := (aliasPath_of_aliased hTx hAlias).mp hPath
          obtain ⟨hOut, hNodup⟩ := List.nodup_cons.mp hNodup
          refine ⟨rest, last, hRest, hNodup, ?_, Nat.le_of_succ_le_succ hLength, hRecords⟩
          intro d hd hMem
          rcases List.mem_cons.mp hMem with rfl | hMem
          · exact hOut hd
          · exact hFresh d (List.mem_cons_of_mem _ hd) hMem
    · constructor
      · intro hOk
        exact absurd (activeEntry_of_resolveCNAME hOk) hActive
      · rintro ⟨path, last, hPath, -⟩
        exact absurd hPath.active hActive

theorem resolveLocally_of_active {now : Int} {cache : Cache}
    (hTx : ActiveEntry E im currentSlot slotsPerDay domain tx) :
    resolveLocally E im currentSlot slotsPerDay domain queryType now cache =
      if queryType ≠ utf8 "CNAME" ∧ hasCNAME tx.records = true then
        (cache, resolveCNAME E im currentSlot slotsPerDay queryType cnameDepthLimit domain [])
      else
        let filtered := filterByType tx.records queryType
        if filtered.length = 0 then
          (cache, .error (utf8 "no " ++ queryType ++ utf8 " records for domain " ++ domain))
        else (setToCache cache now domain queryType filtered, .ok filtered) := by
  unfold resolveLocally
  rw [hTx.1]
  dsimp only
  rw [if_neg (not_not.mpr hTx.2)]

theorem activeEntry_of_resolveLocally {now : Int} {cache : Cache}
    (hOk : (resolveLocally E im currentSlot slotsPerDay domain queryType now cache).2 =
      .ok records) :
    ∃ tx, ActiveEntry E im currentSlot slotsPerDay domain tx := by
  unfold resolveLocally at hOk
  split at hOk
  · cases hOk
  · rename_i tx hTx
    refine ⟨tx, hTx, ?_⟩
    by_contra hPhase
    simp [hPhase] at hOk

theorem hasCNAME_iff {records : List Record} :
    hasCNAME records = true ↔ filterByType records (utf8 "CNAME") ≠ [] := by
  simp [hasCNAME, filterByType]

/-- What a full node finds in its index for a type that is followed. -/
theorem resolveLocally_eq_ok_iff (hType : queryType ≠ utf8 "CNAME") (now : Int) (cache : Cache) :
    (resolveLocally E im currentSlot slotsPerDay domain queryType now cache).2 = .ok records ↔
      ∃ path last, AliasPath E im currentSlot slotsPerDay domain path last ∧ path.Nodup ∧
        path.length ≤ cnameDepthLimit ∧ filterByType last.records queryType = records ∧
        records ≠ [] := by
  by_cases hActive : ∃ tx, ActiveEntry E im currentSlot slotsPerDay domain tx
  · obtain ⟨tx, hTx⟩ := hActive
    cases hAlias : filterByType tx.records (utf8 "CNAME") with
    | nil =>
      have hPlain : ¬ (queryType ≠ utf8 "CNAME" ∧ hasCNAME tx.records = true) :=
        fun h => hasCNAME_iff.mp h.2 hAlias
      rw [resolveLocally_of_active hTx, if_neg hPlain]
      dsimp only
      rw [apply_ite Prod.snd, filtered_eq_ok]
      constructor
      · rintro ⟨hRecords, hSome⟩
        exact ⟨[domain], tx, .here hTx hAlias, List.nodup_singleton _,
          Nat.le_add_left 1 9, hRecords, hSome⟩
      · rintro ⟨path, last, hPath, -, -, hRecords, hSome⟩
        obtain ⟨-, rfl⟩ := (aliasPath_of_plain hTx hAlias).mp hPath
        exact ⟨hRecords, hSome⟩
    | cons cname others =>
      have hHas : hasCNAME tx.records = true := hasCNAME_iff.mpr (hAlias ▸ List.cons_ne_nil _ _)
      rw [resolveLocally_of_active hTx, if_pos ⟨hType, hHas⟩]
      dsimp only
      rw [resolveCNAME_eq_ok]
      simp only [List.not_mem_nil, not_false_eq_true, implies_true, true_and]
  · constructor
    · intro hOk
      exact absurd (activeEntry_of_resolveLocally hOk) hActive
    · rintro ⟨path, last, hPath, -⟩
      exact absurd hPath.active hActive

/-- `ResolveDomain` on a full node with a cold cache answers exactly where the aliases from the
domain lead, through at most ten distinct active domains, to records of the type. -/
theorem resolveDomain_follows_aliases {cache : Cache} (hType : queryType ≠ utf8 "CNAME")
    (hCold : cache (domain, queryType) = none) (now : Int) (waited : Int × Cache) :
    (∀ records, (resolveDomain E im currentSlot slotsPerDay true domain queryType now cache
          waited).2 = .ok records ↔
        ∃ path last, AliasPath E im currentSlot slotsPerDay domain path last ∧ path.Nodup ∧
          path.length ≤ 10 ∧ (last.records.filter fun r => r.type = queryType) = records ∧
          records ≠ []) ∧
      ((¬ ∃ path last, AliasPath E im currentSlot slotsPerDay domain path last ∧ path.Nodup ∧
          path.length ≤ 10 ∧ (last.records.filter fun r => r.type = queryType) ≠ []) →
        ∃ text, (resolveDomain E im currentSlot slotsPerDay true domain queryType now cache
          waited).2 = .error text) := by
  rw [resolveDomain_cold hCold]
  refine ⟨fun records => resolveLocally_eq_ok_iff hType now cache, fun hNone => ?_⟩
  cases hResult : (resolveLocally E im currentSlot slotsPerDay domain queryType now cache).2 with
  | error text => exact ⟨text, rfl⟩
  | ok records =>
    obtain ⟨path, last, hPath, hNodup, hLength, rfl, hSome⟩ :=
      (resolveLocally_eq_ok_iff hType now cache).mp hResult
    exact absurd ⟨path, last, hPath, hNodup, hLength, hSome⟩ hNone

end Resolve

/-! ## An index with aliases -/

namespace StandIn

/-- An index that holds the given domains with their records until slot 500. -/
def indexOf (entries : List (Bytes × List Record)) : IndexManager :=
  entries.foldl (fun im e => im.add (.standIn fun _ => none) e.1
    { tid := 1, type := .reveal, domainName := e.1, expirySlot := 500, records := e.2 } 1 0 10) {}

def cname (target : Bytes) : Record := ⟨utf8 "CNAME", target, 0⟩

def address : Record := ⟨utf8 "A", utf8 "10.0.0.1", 0⟩

/-- An alias, its target, and a domain that is an alias of itself. -/
def aliasIndex : IndexManager :=
  indexOf [(utf8 "a.bdns", [cname (utf8 "b.bdns")]), (utf8 "b.bdns", [address]),
    (utf8 "c.bdns", [address, cname (utf8 "c.bdns")])]

end StandIn

theorem resolveDomain_follows_aliases_sample :
    (∃ path last, AliasPath (.standIn fun _ => none) StandIn.aliasIndex 100 10 (utf8 "a.bdns") path
        last ∧ path.Nodup ∧ path.length ≤ 10 ∧
        (last.records.filter fun r => r.type = utf8 "A") = [StandIn.address] ∧
        [StandIn.address] ≠ []) ∧
      ¬ ∃ path last, AliasPath (.standIn fun _ => none) StandIn.aliasIndex 100 10 (utf8 "c.bdns")
        path last ∧ path.Nodup ∧ path.length ≤ 10 ∧
        (last.records.filter fun r => r.type = utf8 "A") = [StandIn.address] ∧
        [StandIn.address] ≠ [] := by
  constructor
  · exact ((resolveDomain_follows_aliases (by decide +kernel) rfl 0 (3, fun _ => none)).1
      [StandIn.address]).mp (by decide +kernel : (resolveDomain (.standIn fun _ => none)
        StandIn.aliasIndex 100 10 true (utf8 "a.bdns") (utf8 "A") 0 (fun _ => none)
        (3, fun _ => none)).2 = .ok [StandIn.address])
  · exact fun h => absurd (((resolveDomain_follows_aliases (by decide +kernel) rfl 0
      (3, fun _ => none)).1 [StandIn.address]).mpr h)
      (by decide +kernel : (resolveDomain (.standIn fun _ => none)
        StandIn.aliasIndex 100 10 true (utf8 "c.bdns") (utf8 "A") 0 (fun _ => none)
        (3, fun _ => none)).2 ≠ .ok [StandIn.address])

end Bdns.Network
