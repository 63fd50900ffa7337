import Bdns.Index.IndexManager
import Bdns.Network.LightNode

/-!
# Resolution of domains

`ResolveDomain` of `resolver.go`: the cache first, then the index on a full node or an answer of a
peer on a light node. A full node follows CNAME records through the index.
-/

namespace Bdns.Network

open Lib Blockchain Index

def cnameDepthLimit : Nat := 10

def hasCNAME (records : List Record) : Bool := records.any fun r => r.type == utf8 "CNAME"

section Resolve

variable (E : External) (im : IndexManager) (currentSlot slotsPerDay : Int64)

/-- `resolveCNAME`. The first argument is how far the visited domains are from the limit. -/
def resolveCNAME (queryType : Bytes) : Nat → Bytes → List Bytes → Except Bytes (List Record)
  | budget, domain, visited =>
    if domain ∈ visited then .error (utf8 "CNAME loop detected involving domain " ++ domain)
    else
      match budget with
      | 0 =>
        .error (utf8 "CNAME chain exceeded depth limit of " ++ decimal cnameDepthLimit ++
          utf8 " at domain " ++ domain)
      | budget + 1 =>
        match im.getDomain E domain with
        | none =>
          .error (utf8 "domain " ++ domain ++ utf8 " not found in B-DNS (CNAME chain)")
        | some tx =>
          let phase := getDomainPhase currentSlot tx.expirySlot slotsPerDay
          if phase ≠ .active then
            .error (utf8 "domain " ++ domain ++ utf8 " is in " ++ phase.text ++
              utf8 " phase (CNAME chain)")
          else
            match filterByType tx.records (utf8 "CNAME") with
            | [] =>
              let filtered := filterByType tx.records queryType
              if filtered.length = 0 then
                .error (utf8 "no " ++ queryType ++ utf8 " records for domain " ++ domain ++
                  utf8 " (CNAME chain)")
              else .ok filtered
            | cname :: _ => resolveCNAME queryType budget cname.value (domain :: visited)

/-- The part of `ResolveDomain` that a full node reaches when the cache has no answer. -/
def resolveLocally (domain queryType : Bytes) (now : Int) (cache : Cache) :
    Cache × Except Bytes (List Record) :=
  match im.getDomain E domain with
  | none => (cache, .error (utf8 "domain " ++ domain ++ utf8 " not found in B-DNS"))
  | some tx =>
    let phase := getDomainPhase currentSlot tx.expirySlot slotsPerDay
    if phase ≠ .active then
      (cache, .error (utf8 "domain " ++ domain ++ utf8 " is in " ++ phase.text ++ utf8 " phase"))
    else if queryType ≠ utf8 "CNAME" ∧ hasCNAME tx.records = true then
      (cache, resolveCNAME E im currentSlot slotsPerDay queryType cnameDepthLimit domain [])
    else
      let filtered := filterByType tx.records queryType
      if filtered.length = 0 then
        (cache, .error (utf8 "no " ++ queryType ++ utf8 " records for domain " ++ domain))
      else (setToCache cache now domain queryType filtered, .ok filtered)

/-- `ResolveDomain`, with the cache after it. A light node asks a peer and looks into the cache
again: `waited` is the time and the cache after the wait. -/
def resolveDomain (isFullNode : Bool) (domain queryType : Bytes) (now : Int) (cache : Cache)
    (waited : Int × Cache) : Cache × Except Bytes (List Record) :=
  match getFromCache cache now domain queryType with
  | (cache, some records) => (cache, .ok records)
  | (cache, none) =>
    if isFullNode then resolveLocally E im currentSlot slotsPerDay domain queryType now cache
    else
      match getFromCache waited.2 waited.1 domain queryType with
      | (cache, some records) => (cache, .ok records)
      | (cache, none) =>
        (cache, .error (utf8 "domain " ++ domain ++ utf8 " not found in B-DNS"))

end Resolve

section Answers

variable {E : External} {im : IndexManager} {currentSlot slotsPerDay : Int64} {domain : Bytes}
  {tx : Transaction}

/-- Without an entry in the cache a full node answers from its index. -/
theorem resolveDomain_cold {queryType : Bytes} {now : Int} {cache : Cache} {waited : Int × Cache}
    (hCold : cache (domain, queryType) = none) :
    resolveDomain E im currentSlot slotsPerDay true domain queryType now cache waited =
      resolveLocally E im currentSlot slotsPerDay domain queryType now cache := by
  unfold resolveDomain getFromCache
  rw [hCold]
  rfl

/-- An entry out of its active phase, or without records, is an error for every type. -/
theorem resolveLocally_eq_error (hEntry : im.getDomain E domain = some tx)
    (h : getDomainPhase currentSlot tx.expirySlot slotsPerDay ≠ .active ∨ tx.records = [])
    (queryType : Bytes) (now : Int) (cache : Cache) :
    ∃ text, (resolveLocally E im currentSlot slotsPerDay domain queryType now cache).2 =
      .error text := by
  unfold resolveLocally
  rw [hEntry]
  dsimp only
  split
  · exact ⟨_, rfl⟩
  · rename_i hActive
    have hNone : tx.records = [] := h.resolve_left hActive
    simp [hNone, hasCNAME, filterByType]

/-- An active entry with records is found under the type of one of them. -/
theorem resolveLocally_eq_ok (hEntry : im.getDomain E domain = some tx)
    (hActive : getDomainPhase currentSlot tx.expirySlot slotsPerDay = .active)
    (hRecords : tx.records ≠ []) (now : Int) (cache : Cache) :
    ∃ queryType records,
      (resolveLocally E im currentSlot slotsPerDay domain queryType now cache).2 = .ok records := by
  -- a CNAME is given out under its own type, and anything else where there is none
  obtain ⟨r, hr, hDirect⟩ : ∃ r ∈ tx.records,
      ¬ (r.type ≠ utf8 "CNAME" ∧ hasCNAME tx.records = true) := by
    by_cases hCname : hasCNAME tx.records = true
    · obtain ⟨r, hr, hType⟩ := List.any_eq_true.mp hCname
      exact ⟨r, hr, fun hNot => hNot.1 (beq_iff_eq.mp hType)⟩
    · obtain ⟨r, rest, hCons⟩ := List.exists_cons_of_ne_nil hRecords
      exact ⟨r, by simp [hCons], fun hNot => hCname hNot.2⟩
  have hFound : r ∈ filterByType tx.records r.type :=
    List.mem_filter.mpr ⟨hr, decide_eq_true rfl⟩
  refine ⟨r.type, filterByType tx.records r.type, ?_⟩
  unfold resolveLocally
  rw [hEntry]
  dsimp only
  rw [if_neg (not_not.mpr hActive), if_neg hDirect,
    if_neg (Nat.ne_of_gt (List.length_pos_of_mem hFound))]

end Answers

end Bdns.Network
