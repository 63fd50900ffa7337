import Bdns.Gateway.Server
import Bdns.Network.Aliases

/-!
# The DNS server

`rfc1035_handler.go` answers DNS queries from the index, apart from `ResolveDomain`. The handler
gives out a domain's own records of the type and does not follow aliases; it also cuts the priority
of an MX record down to 16 bits. Where there is no alias and the priorities fit, both paths give
the same answer.
-/

namespace Bdns.Network

open Lib Blockchain Index

/-- The code that the handler uses from the standard library and from `miekg/dns`. -/
structure DnsLib where
  /-- `net.ParseIP`. -/
  parseIP : Bytes → Option Bytes
  /-- `IP.To4`. -/
  to4 : Bytes → Option Bytes
  /-- `dns.Fqdn`. -/
  fqdn : Bytes → Bytes

inductive QType
  | a
  | aaaa
  | cname
  | mx
  | txt
  | ns
  | other (code : UInt16)
  deriving DecidableEq

/-- What is in a resource record, apart from its header. -/
inductive RData
  | a (ip : Bytes)
  | aaaa (ip : Bytes)
  | cname (target : Bytes)
  | mx (preference : UInt16) (mx : Bytes)
  | txt (txt : List Bytes)
  | ns (ns : Bytes)
  deriving DecidableEq

structure RR where
  name : Bytes
  ttl : UInt32
  data : RData
  deriving DecidableEq

inductive Rcode
  | success
  | nameError
  deriving DecidableEq

structure DnsResponse where
  rcode : Rcode := .success
  answer : List RR := []
  deriving DecidableEq

section Handler

variable (lib : DnsLib)

/-- The loop of the functions that build resource records of one type. -/
def buildRecords (type : Bytes) (rdata : Record → Option RData) (name : Bytes)
    (records : List Record) (ttl : UInt32) : List RR :=
  records.filterMap fun r =>
    if r.type ≠ type then none else (rdata r).map fun data => { name, ttl, data }

def rdataA (r : Record) : Option RData := ((lib.parseIP r.value).bind lib.to4).map .a

def rdataAAAA (r : Record) : Option RData := (lib.parseIP r.value).map .aaaa

def rdataCNAME (r : Record) : Option RData := some (.cname (lib.fqdn r.value))

def rdataMX (r : Record) : Option RData :=
  some (.mx r.priority.toUInt64.toUInt16 (lib.fqdn r.value))

def rdataTXT (r : Record) : Option RData := some (.txt [r.value])

def rdataNS (r : Record) : Option RData := some (.ns (lib.fqdn r.value))

def buildARecords : Bytes → List Record → UInt32 → List RR := buildRecords (utf8 "A") (rdataA lib)

def buildAAAARecords : Bytes → List Record → UInt32 → List RR :=
  buildRecords (utf8 "AAAA") (rdataAAAA lib)

def buildCNAMERecords : Bytes → List Record → UInt32 → List RR :=
  buildRecords (utf8 "CNAME") (rdataCNAME lib)

def buildMXRecords : Bytes → List Record → UInt32 → List RR :=
  buildRecords (utf8 "MX") (rdataMX lib)

def buildTXTRecords : Bytes → List Record → UInt32 → List RR := buildRecords (utf8 "TXT") rdataTXT

def buildNSRecords : Bytes → List Record → UInt32 → List RR :=
  buildRecords (utf8 "NS") (rdataNS lib)

def buildAllRecords (name : Bytes) (records : List Record) (ttl : UInt32) : List RR :=
  buildARecords lib name records ttl ++ buildAAAARecords lib name records ttl ++
    buildCNAMERecords lib name records ttl ++ buildMXRecords lib name records ttl ++
    buildTXTRecords name records ttl ++ buildNSRecords lib name records ttl

/-- At most the length of a slot, which is also the default. -/
def capTTL (slotInterval : Int64) (ttl : UInt32) : UInt32 :=
  let cap := slotInterval.toUInt64.toUInt32
  if ttl = 0 ∨ ttl > cap then cap else ttl

/-- `HandleDNSQuery`, for the questions of a message. -/
def handleDNSQuery (E : External) (clock : Clock) (im : IndexManager) (now : Int64) :
    List (Bytes × QType) → Go DnsResponse
  | [] => pure { rcode := .nameError }
  | (fqdn, qtype) :: _ =>
    let lookup := if fqdn.getLast? = some 46 then fqdn.dropLast else fqdn
    match im.getDomain E lookup with
    | none => pure { rcode := .nameError }
    | some tx => do
      let phase ← Gateway.phaseAt clock now tx.expirySlot
      if phase ≠ .active then pure { rcode := .nameError }
      else
        let ttl := capTTL clock.slotInterval tx.cacheTTL.toUInt64.toUInt32
        let answer := match qtype with
          | .a => buildARecords lib fqdn tx.records ttl
          | .aaaa => buildAAAARecords lib fqdn tx.records ttl
          | .cname => buildCNAMERecords lib fqdn tx.records ttl
          | .mx => buildMXRecords lib fqdn tx.records ttl
          | .txt => buildTXTRecords fqdn tx.records ttl
          | .ns => buildNSRecords lib fqdn tx.records ttl
          | .other _ => buildAllRecords lib fqdn tx.records ttl
        pure { rcode := if answer.length = 0 then .nameError else .success, answer }

end Handler

/-! ## What an answer carries -/

/-- The type in the records of a domain. -/
def QType.text : QType → Bytes
  | .a => utf8 "A"
  | .aaaa => utf8 "AAAA"
  | .cname => utf8 "CNAME"
  | .mx => utf8 "MX"
  | .txt => utf8 "TXT"
  | .ns => utf8 "NS"
  | .other _ => []

def QType.rdata (lib : DnsLib) : QType → Record → Option RData
  | .a => rdataA lib
  | .aaaa => rdataAAAA lib
  | .cname => rdataCNAME lib
  | .mx => rdataMX lib
  | .txt => rdataTXT
  | .ns => rdataNS lib
  | .other _ => fun _ => none

/-- The types for which the two paths are compared. -/
def QType.compared : List QType := [.a, .aaaa, .cname, .mx, .txt]

/-- A resource record carries the value of a record of the type, and its priority for MX. -/
def Carries (lib : DnsLib) : QType → Record → RData → Prop
  | .a, r, .a ip => (lib.parseIP r.value).bind lib.to4 = some ip
  | .aaaa, r, .aaaa ip => lib.parseIP r.value = some ip
  | .cname, r, .cname target => target = lib.fqdn r.value
  | .mx, r, .mx preference mx =>
    (preference.toNat : Int) = r.priority.toInt ∧ mx = lib.fqdn r.value
  | .txt, r, .txt txt => txt = [r.value]
  | _, _, _ => False

/-- The priority of a record fits into the preference of a resource record. -/
def PriorityFits (r : Record) : Prop := 0 ≤ r.priority.toInt ∧ r.priority.toInt < 2 ^ 16

instance (r : Record) : Decidable (PriorityFits r) := inferInstanceAs (Decidable (_ ∧ _))

theorem priorityFits_iff {r : Record} :
    ((r.priority.toUInt64.toUInt16.toNat : Nat) : Int) = r.priority.toInt ↔ PriorityFits r := by
  have hNat : r.priority.toUInt64.toUInt16.toNat = r.priority.toBitVec.toNat % 2 ^ 16 :=
    UInt64.toNat_toUInt16 _
  have hInt : r.priority.toInt = r.priority.toBitVec.toInt := rfl
  have hLt := r.priority.toBitVec.isLt
  unfold PriorityFits
  rw [hNat, hInt, BitVec.toInt_eq_toNat_cond]
  split <;> omega

theorem carries_iff {lib : DnsLib} {q : QType} (hq : q ∈ QType.compared) {r : Record}
    {data : RData} :
    Carries lib q r data ↔ q.rdata lib r = some data ∧ (q = .mx → PriorityFits r) := by
  simp only [QType.compared, List.mem_cons, List.not_mem_nil, or_false] at hq
  rcases hq with rfl | rfl | rfl | rfl | rfl
  · unfold QType.rdata rdataA
    cases data <;> simp only [Carries] <;> cases (lib.parseIP r.value).bind lib.to4 <;> simp
  · cases data <;> simp [Carries, QType.rdata, rdataAAAA]
  · cases data <;> simp [Carries, QType.rdata, rdataCNAME, eq_comm]
  · cases data with
    | mx preference mx =>
      have hRdata : QType.mx.rdata lib r = some (.mx preference mx) ↔
          r.priority.toUInt64.toUInt16 = preference ∧ lib.fqdn r.value = mx := by
        rw [QType.rdata, rdataMX, Option.some.injEq, RData.mx.injEq]
      rw [hRdata, Carries]
      constructor
      · rintro ⟨hPreference, rfl⟩
        have hFits : PriorityFits r := by
          have hLt := preference.toNat_lt
          unfold PriorityFits
          omega
        have hSame := priorityFits_iff.mpr hFits
        refine ⟨⟨UInt16.toNat_inj.mp ?_, rfl⟩, fun _ => hFits⟩
        omega
      · rintro ⟨⟨rfl, rfl⟩, hFits⟩
        exact ⟨priorityFits_iff.mpr (hFits rfl), rfl⟩
    | _ => simp [Carries, QType.rdata, rdataMX]
  · cases data <;> simp [Carries, QType.rdata, rdataTXT, eq_comm]

/-- Records and resource records one by one. -/
theorem forall₂_carries_iff {lib : DnsLib} {q : QType} (hq : q ∈ QType.compared)
    {records : List Record} (hFormed : ∀ r ∈ records, (q.rdata lib r).isSome) :
    List.Forall₂ (Carries lib q) records (records.filterMap (q.rdata lib)) ↔
      (q = .mx → ∀ r ∈ records, PriorityFits r) := by
  induction records with
  | nil => simp
  | cons r records ih =>
    obtain ⟨data, hData⟩ := Option.isSome_iff_exists.mp (hFormed r List.mem_cons_self)
    rw [List.filterMap_cons_some hData, List.forall₂_cons, carries_iff hq,
      ih fun r' hr' => hFormed r' (List.mem_cons_of_mem _ hr')]
    simp only [hData, true_and, List.forall_mem_cons]
    exact ⟨fun h hMx => ⟨h.1 hMx, h.2 hMx⟩, fun h => ⟨fun hMx => (h hMx).1, fun hMx => (h hMx).2⟩⟩

theorem data_buildRecords (type : Bytes) (rdata : Record → Option RData) (name : Bytes)
    (records : List Record) (ttl : UInt32) :
    (buildRecords type rdata name records ttl).map RR.data =
      (filterByType records type).filterMap rdata := by
  unfold buildRecords filterByType
  rw [List.map_filterMap, List.filterMap_filter]
  congr 1
  funext r
  by_cases hType : r.type = type
  · simp [hType, Function.comp_def]
  · simp [hType]

/-! ## The two paths -/

section Paths

variable (E : External) (lib : DnsLib) (clock : Clock) (im : IndexManager) (now : Int64)

/-- The stored addresses are well formed. -/
def AddressesFormed : Prop :=
  ∀ domain tx, im.getDomain E domain = some tx → ∀ r ∈ tx.records,
    (r.type = utf8 "A" → ((lib.parseIP r.value).bind lib.to4).isSome) ∧
      (r.type = utf8 "AAAA" → (lib.parseIP r.value).isSome)

/-- The domain is active at the time of the query. -/
def ActiveAt (domain : Bytes) (tx : Transaction) : Prop :=
  ActiveEntry E im (clock.slotAt now) (86400 / clock.slotInterval) domain tx

/-- The answer of the handler to a question for the domain; a name in a question ends with a
dot. -/
def served (domain : Bytes) (q : QType) : Go DnsResponse :=
  handleDNSQuery lib E clock im now [(domain ++ [46], q)]

/-- The answer of `ResolveDomain` on a full node in the same slot, with a cold cache. -/
def resolved (domain : Bytes) (q : QType) : Except Bytes (List Record) :=
  (resolveDomain E im (clock.slotAt now) (86400 / clock.slotInterval) true domain q.text 0
    (fun _ => none) (0, fun _ => none)).2

/-- The handler answers where `ResolveDomain` does, and with the same values. -/
def PathsAgree (domain : Bytes) (q : QType) : Prop :=
  ∃ resp, served E lib clock im now domain q = .ok resp ∧
    (resp.rcode = .success ↔ ∃ records, resolved E clock im now domain q = .ok records) ∧
    ∀ records, resolved E clock im now domain q = .ok records →
      List.Forall₂ (Carries lib q) records (resp.answer.map RR.data)

/-- The data of the domain's own records of a type. -/
def ownData (tx : Transaction) (q : QType) : List RData :=
  (filterByType tx.records q.text).filterMap (q.rdata lib)

/-- The aliases from the domain lead to these records of the type. -/
def AliasesLeadTo (domain : Bytes) (q : QType) (records : List Record) : Prop :=
  ∃ path last, AliasPath E im (clock.slotAt now) (86400 / clock.slotInterval) domain path last ∧
    path.Nodup ∧ path.length ≤ 10 ∧ filterByType last.records q.text = records ∧ records ≠ []

/-- What the domain itself has for the type is the answer: of a domain with an alias the records to
which the aliases lead, in other words, and otherwise its own records, if their priorities fit. -/
def OwnAnswerHolds (domain : Bytes) (q : QType) : Prop :=
  ∀ tx, ActiveAt E clock im now domain tx →
    if q ≠ .cname ∧ hasCNAME tx.records = true then
      (∀ records, AliasesLeadTo E clock im now domain q records →
        List.Forall₂ (Carries lib q) records (ownData lib tx q)) ∧
      ((¬ ∃ records, AliasesLeadTo E clock im now domain q records) →
        filterByType tx.records q.text = [])
    else q = .mx → ∀ r ∈ tx.records, r.type = utf8 "MX" → PriorityFits r

end Paths

section Answers

variable {E : External} {lib : DnsLib} {clock : Clock} {im : IndexManager} {now : Int64}
  {domain : Bytes} {tx : Transaction} {q : QType}

theorem served_of_not_active (hInterval : clock.slotInterval ≠ 0)
    (hNone : ¬ ∃ tx, ActiveAt E clock im now domain tx) :
    served E lib clock im now domain q = .ok { rcode := .nameError } := by
  unfold served handleDNSQuery
  simp only [List.getLast?_concat, if_true, List.dropLast_concat]
  cases hTx : im.getDomain E domain with
  | none => rfl
  | some tx =>
    have hPhase : getDomainPhase (clock.slotAt now) tx.expirySlot (86400 / clock.slotInterval) ≠
        .active := fun hActive => hNone ⟨tx, hTx, hActive⟩
    simp [Gateway.phaseAt, hInterval, hPhase, pure, Except.pure, bind, Except.bind]

theorem served_of_active (hInterval : clock.slotInterval ≠ 0) (hq : q ∈ QType.compared)
    (hTx : ActiveAt E clock im now domain tx) :
    ∃ resp, served E lib clock im now domain q = .ok resp ∧
      resp.answer.map RR.data = ownData lib tx q ∧
      (resp.rcode = .success ↔ ownData lib tx q ≠ []) := by
  have hPhase : Gateway.phaseAt clock now tx.expirySlot = .ok .active := by
    rw [Gateway.phaseAt, if_neg hInterval, hTx.2]
    rfl
  obtain ⟨answer, hServed, hData⟩ : ∃ answer : List RR,
      served E lib clock im now domain q =
        .ok { rcode := if answer.length = 0 then .nameError else .success, answer } ∧
      answer.map RR.data = ownData lib tx q := by
    unfold served handleDNSQuery
    simp only [List.getLast?_concat, if_true, List.dropLast_concat, hTx.1, hPhase, bind,
      Except.bind, ne_eq, not_true_eq_false, if_false]
    simp only [QType.compared, List.mem_cons, List.not_mem_nil, or_false] at hq
    rcases hq with rfl | rfl | rfl | rfl | rfl <;> exact ⟨_, rfl, data_buildRecords _ _ _ _ _⟩
  refine ⟨_, hServed, hData, ?_⟩
  rw [← hData]
  cases answer with
  | nil => simp
  | cons rr answer => simp

/-- Where addresses are well formed, every record of a type gives a resource record. -/
theorem isSome_rdata (hFormed : AddressesFormed E lib im) (hq : q ∈ QType.compared)
    {slot slotsPerDay : Int64} (hTx : ActiveEntry E im slot slotsPerDay domain tx) :
    ∀ r ∈ filterByType tx.records q.text, (q.rdata lib r).isSome := by
  intro r hr
  obtain ⟨hMem, hType⟩ := List.mem_filter.mp hr
  obtain ⟨hA, hAAAA⟩ := hFormed domain tx hTx.1 r hMem
  have hType := of_decide_eq_true hType
  simp only [QType.compared, List.mem_cons, List.not_mem_nil, or_false] at hq
  rcases hq with rfl | rfl | rfl | rfl | rfl
  · rw [QType.rdata, rdataA, Option.isSome_map]
    exact hA hType
  · rw [QType.rdata, rdataAAAA, Option.isSome_map]
    exact hAAAA hType
  · rfl
  · rfl
  · rfl

theorem text_eq_cname (hq : q ∈ QType.compared) : q.text = utf8 "CNAME" ↔ q = .cname := by
  simp only [QType.compared, List.mem_cons, List.not_mem_nil, or_false] at hq
  rcases hq with rfl | rfl | rfl | rfl | rfl <;> decide +kernel

theorem resolved_eq :
    resolved E clock im now domain q = (resolveLocally E im (clock.slotAt now)
      (86400 / clock.slotInterval) domain q.text 0 fun _ => none).2 := by
  rw [resolved, resolveDomain_cold rfl]

/-- Without an alias on the way, `ResolveDomain` has the domain's own records. -/
theorem resolved_of_plain (hTx : ActiveAt E clock im now domain tx) (hq : q ∈ QType.compared)
    (hPlain : ¬ (q ≠ .cname ∧ hasCNAME tx.records = true)) {records : List Record} :
    resolved E clock im now domain q = .ok records ↔
      filterByType tx.records q.text = records ∧ records ≠ [] := by
  rw [Ne, ← text_eq_cname hq] at hPlain
  rw [resolved_eq, resolveLocally_of_active hTx, if_neg hPlain]
  dsimp only
  rw [apply_ite Prod.snd, filtered_eq_ok]

/-- The two paths agree exactly where the domain's own records are the answer. -/
theorem pathsAgree_iff (hInterval : clock.slotInterval ≠ 0) (hFormed : AddressesFormed E lib im)
    (domain : Bytes) {q : QType} (hq : q ∈ QType.compared) :
    PathsAgree E lib clock im now domain q ↔ OwnAnswerHolds E lib clock im now domain q := by
  by_cases hActive : ∃ tx, ActiveAt E clock im now domain tx
  · obtain ⟨tx, hTx⟩ := hActive
    obtain ⟨resp, hServed, hData, hCode⟩ :=
      @served_of_active E lib clock im now domain tx q hInterval hq hTx
    have hSome := isSome_rdata hFormed hq hTx
    have hOwn : ownData lib tx q = [] ↔ filterByType tx.records q.text = [] := by
      unfold ownData
      rw [List.filterMap_eq_nil_iff]
      constructor
      · intro hNone
        rw [List.eq_nil_iff_forall_not_mem]
        intro r hr
        have hIs := hSome r hr
        rw [hNone r hr] at hIs
        cases hIs
      · intro hNone r hr
        rw [hNone] at hr
        cases hr
    have hAgree : PathsAgree E lib clock im now domain q ↔
        (filterByType tx.records q.text ≠ [] ↔
          ∃ records, resolved E clock im now domain q = .ok records) ∧
        ∀ records, resolved E clock im now domain q = .ok records →
          List.Forall₂ (Carries lib q) records (ownData lib tx q) := by
      unfold PathsAgree
      simp only [hServed, Except.ok.injEq, exists_eq_left', hData, hCode, ne_eq, hOwn]
    have hHolds : OwnAnswerHolds E lib clock im now domain q ↔
        if q ≠ .cname ∧ hasCNAME tx.records = true then
          (∀ records, AliasesLeadTo E clock im now domain q records →
            List.Forall₂ (Carries lib q) records (ownData lib tx q)) ∧
          ((¬ ∃ records, AliasesLeadTo E clock im now domain q records) →
            filterByType tx.records q.text = [])
        else q = .mx → ∀ r ∈ tx.records, r.type = utf8 "MX" → PriorityFits r := by
      constructor
      · exact fun h => h tx hTx
      · intro h tx' hTx'
        rwa [← hTx.unique hTx']
    rw [hAgree, hHolds]
    by_cases hAlias : q ≠ .cname ∧ hasCNAME tx.records = true
    · have hLead : ∀ records, resolved E clock im now domain q = .ok records ↔
          AliasesLeadTo E clock im now domain q records := by
        intro records
        rw [resolved_eq]
        exact resolveLocally_eq_ok_iff (mt (text_eq_cname hq).mp hAlias.1) _ _
      rw [if_pos hAlias]
      simp only [hLead]
      constructor
      · rintro ⟨hSame, hCarries⟩
        exact ⟨hCarries, fun hNone => by_contra fun hOwnSome => hNone (hSame.mp hOwnSome)⟩
      · rintro ⟨hCarries, hMissing⟩
        refine ⟨⟨fun hOwnSome => by_contra fun hNone => hOwnSome (hMissing hNone), ?_⟩, hCarries⟩
        rintro ⟨records, hRecords⟩ hOwnNone
        obtain ⟨path, last, -, -, -, -, hNe⟩ := id hRecords
        have hForall := hCarries records hRecords
        rw [hOwn.mpr hOwnNone, List.forall₂_nil_right_iff] at hForall
        exact hNe hForall
    · rw [if_neg hAlias]
      simp only [resolved_of_plain hTx hq hAlias]
      have hOwnForall := forall₂_carries_iff hq hSome
      constructor
      · rintro ⟨-, hCarries⟩ rfl r hr hType
        have hMem : r ∈ filterByType tx.records QType.mx.text :=
          List.mem_filter.mpr ⟨hr, decide_eq_true hType⟩
        exact hOwnForall.mp (hCarries _ ⟨rfl, List.ne_nil_of_mem hMem⟩) rfl r hMem
      · intro hFits
        refine ⟨⟨fun hNe => ⟨_, rfl, hNe⟩, fun ⟨_, hEq, hNe⟩ => hEq ▸ hNe⟩, ?_⟩
        rintro records ⟨rfl, -⟩
        refine hOwnForall.mpr fun hMx r hr => ?_
        subst hMx
        obtain ⟨hMem, hType⟩ := List.mem_filter.mp hr
        exact hFits rfl r hMem (of_decide_eq_true hType)
  · have hResolved : ¬ ∃ records, resolved E clock im now domain q = .ok records := by
      rintro ⟨records, hOk⟩
      rw [resolved_eq] at hOk
      exact hActive (activeEntry_of_resolveLocally hOk)
    refine iff_of_true ⟨_, served_of_not_active hInterval hActive, ?_, ?_⟩ ?_
    · exact iff_of_false nofun hResolved
    · exact fun records hOk => absurd ⟨records, hOk⟩ hResolved
    · exact fun tx hTx => absurd ⟨tx, hTx⟩ hActive

end Answers

/-! ## An alias and a large priority -/

namespace StandIn

/-- Addresses are taken as they are, and names get a dot. -/
def dnsLib : DnsLib where
  parseIP := some
  to4 := some
  fqdn := fun name => if name.getLast? = some 46 then name else name ++ [46]

/-- A slot has ten seconds. -/
def dnsClock : Clock := ⟨10, 0⟩

/-- A mail exchange with a priority of more than 16 bits. -/
def mailRecord : Record := ⟨utf8 "MX", utf8 "mail.bdns", 65546⟩

def dnsIndex : IndexManager :=
  indexOf [(utf8 "a.bdns", [cname (utf8 "b.bdns")]), (utf8 "b.bdns", [address]),
    (utf8 "m.bdns", [mailRecord])]

end StandIn

/-- A domain with an address and no alias. -/
theorem pathsAgree_iff_address :
    PathsAgree (.standIn fun _ => none) StandIn.dnsLib StandIn.dnsClock StandIn.dnsIndex 1000
      (utf8 "b.bdns") .a := by
  refine (pathsAgree_iff (by decide) (fun _ _ _ _ _ => ⟨fun _ => rfl, fun _ => rfl⟩) _
    (by decide)).mpr ?_
  rintro tx ⟨hTx, -⟩
  have hPlain : (StandIn.dnsIndex.getDomain (.standIn fun _ => none) (utf8 "b.bdns")).any (fun tx =>
      hasCNAME tx.records) = false := by decide +kernel
  rw [hTx, Option.any_some] at hPlain
  rw [if_neg fun h => by rw [hPlain] at h; exact Bool.false_ne_true h.2]
  exact nofun

/-- The handler denies an alias whose address `ResolveDomain` finds, and gives a mail exchange of
priority 65546 the preference 10. -/
theorem handler_disagrees :
    ¬ PathsAgree (.standIn fun _ => none) StandIn.dnsLib StandIn.dnsClock StandIn.dnsIndex 1000
        (utf8 "a.bdns") .a ∧
      ¬ PathsAgree (.standIn fun _ => none) StandIn.dnsLib StandIn.dnsClock StandIn.dnsIndex 1000
        (utf8 "m.bdns") .mx := by
  constructor
  · rintro ⟨resp, hServed, hCode, -⟩
    have hDenied : served (.standIn fun _ => none) StandIn.dnsLib StandIn.dnsClock StandIn.dnsIndex
        1000 (utf8 "a.bdns") .a = .ok { rcode := .nameError } := by decide +kernel
    have hFound : resolved (.standIn fun _ => none) StandIn.dnsClock StandIn.dnsIndex 1000
        (utf8 "a.bdns") .a = .ok [StandIn.address] := by decide +kernel
    obtain rfl := Except.ok.inj (hServed.symm.trans hDenied)
    exact absurd (hCode.mpr ⟨_, hFound⟩) nofun
  · rintro ⟨resp, hServed, -, hCarries⟩
    have hAnswer : served (.standIn fun _ => none) StandIn.dnsLib StandIn.dnsClock StandIn.dnsIndex
        1000 (utf8 "m.bdns") .mx =
          .ok { answer := [⟨utf8 "m.bdns.", 10, .mx 10 (utf8 "mail.bdns.")⟩] } := by
      decide +kernel
    have hFound : resolved (.standIn fun _ => none) StandIn.dnsClock StandIn.dnsIndex 1000
        (utf8 "m.bdns") .mx = .ok [StandIn.mailRecord] := by decide +kernel
    obtain rfl := Except.ok.inj (hServed.symm.trans hAnswer)
    have hForall := hCarries _ hFound
    rw [List.map_cons, List.forall₂_cons] at hForall
    exact absurd hForall.1.1 (by decide)

end Bdns.Network
