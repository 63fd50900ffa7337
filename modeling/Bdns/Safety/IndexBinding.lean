import Bdns.Index.IndexHash
import Bdns.Network.Chain

/-!
# The index hash commits to the index

`GetIndexHash` digests one line of text for each domain, with colons between the fields and bars
between the records. Names, record types and record values are strings of the sender that no
check looks into. Where none of them has a colon, every line can be cut off from what follows it,
so the digest determines the index; with a colon, one record can be written to read as two.
-/

namespace Bdns.Safety

open Lib Blockchain Index Network

/-! ## Reading a line back -/

/-- No string of the sender has a colon. -/
structure Colonless (r : DomainRecord) : Prop where
  name : (58 : UInt8) ∉ r.domain
  fields : ∀ rec ∈ r.records, (58 : UInt8) ∉ rec.type ∧ (58 : UInt8) ∉ rec.value

/-- What the line says about a domain: a missing owner reads as an empty one. -/
def DomainRecord.seen (r : DomainRecord) : DomainRecord :=
  { r with ownerKey := some (r.ownerKey.getD []) }

/-- The text of one record. -/
def recordText (rec : Record) : Bytes :=
  rec.type ++ 58 :: (rec.value ++ 58 :: decimalInt rec.priority.toInt)

/-- The text of the records up to the closing bracket, and what follows. -/
def recordsThen (rest : Bytes) : List Record → Bytes
  | [] => 93 :: rest
  | [rec] => recordText rec ++ 93 :: rest
  | rec :: rec' :: records => recordText rec ++ 124 :: recordsThen rest (rec' :: records)

theorem recordsText_append (records : List Record) (rest : Bytes) :
    recordsText records ++ rest = 91 :: recordsThen rest records := by
  have hOpen : utf8 "[" = [91] := by decide +kernel
  have hClose : utf8 "]" = [93] := by decide +kernel
  have hBar : utf8 "|" = [124] := by decide +kernel
  have hParts : ∀ records : List Record,
      List.intercalate [124] (records.map fun rec =>
        rec.type ++ utf8 ":" ++ rec.value ++ utf8 ":" ++ decimalInt rec.priority.toInt) ++
          93 :: rest = recordsThen rest records := by
    intro records
    induction records with
    | nil => rfl
    | cons rec records ih =>
      cases records with
      | nil => simp [recordsThen, recordText, utf8_colon]
      | cons rec' records =>
        rw [recordsThen, ← ih]
        simp [recordText, utf8_colon, List.intercalate_cons_cons]
  rw [← hParts records]
  simp [recordsText, hOpen, hClose, hBar]

/-- The characters of a number or of an owner in hexadecimal. -/
def NumberOrHex (c : UInt8) : Prop := (48 ≤ c ∧ c ≤ 57) ∨ (97 ≤ c ∧ c ≤ 122) ∨ c = 45

theorem numberOrHex_decimalInt (n : Int) : ∀ c ∈ decimalInt n, NumberOrHex c := by
  intro c hc
  by_contra hNot
  simp only [NumberOrHex, not_or] at hNot
  refine not_mem_decimalInt ?_ hNot.2.2 n hc
  rintro (hDigit | hLetter)
  · exact hNot.1 hDigit
  · exact hNot.2.1 hLetter

theorem numberOrHex_of_alnum {b : Bytes} (hb : Alnum b) : ∀ c ∈ b, NumberOrHex c := by
  intro c hc
  rcases hb c hc with hDigit | hLetter
  · exact .inl hDigit
  · exact .inr (.inl hLetter)

/-- A record without colons is read up to the bar or bracket after its priority. -/
theorem recordText_append_inj {rec rec' : Record} {s t : UInt8} {x y : Bytes}
    (hRec : (58 : UInt8) ∉ rec.type ∧ (58 : UInt8) ∉ rec.value)
    (hRec' : (58 : UInt8) ∉ rec'.type ∧ (58 : UInt8) ∉ rec'.value) (hs : ¬ NumberOrHex s)
    (ht : ¬ NumberOrHex t) (h : recordText rec ++ s :: x = recordText rec' ++ t :: y) :
    rec = rec' ∧ s = t ∧ x = y := by
  simp only [recordText, List.append_assoc, List.cons_append] at h
  obtain ⟨hType, h⟩ := append_sep_inj hRec.1 hRec'.1 h
  obtain ⟨hValue, h⟩ := append_sep_inj hRec.2 hRec'.2 h
  obtain ⟨hPriority, hStop, hRest⟩ := append_stop_inj (numberOrHex_decimalInt _)
    (numberOrHex_decimalInt _) hs ht h
  have hInt := Int64.toInt_inj.mp (decimalInt_injective hPriority)
  exact ⟨Record.ext hType hValue hInt, hStop, hRest⟩

theorem recordsThen_cons_inj {rest rest' : Bytes} {rec rec' : Record}
    {records records' : List Record}
    (hRecords : ∀ r ∈ rec :: records, (58 : UInt8) ∉ r.type ∧ (58 : UInt8) ∉ r.value)
    (hRecords' : ∀ r ∈ rec' :: records', (58 : UInt8) ∉ r.type ∧ (58 : UInt8) ∉ r.value)
    (h : recordsThen rest (rec :: records) = recordsThen rest' (rec' :: records')) :
    rec :: records = rec' :: records' ∧ rest = rest' := by
  have hBracket : ¬ NumberOrHex 93 := by unfold NumberOrHex; decide
  have hBar : ¬ NumberOrHex 124 := by unfold NumberOrHex; decide
  have hHead := hRecords rec List.mem_cons_self
  have hHead' := hRecords' rec' List.mem_cons_self
  induction records generalizing rec rec' records' with
  | nil =>
    cases records' with
    | nil =>
      obtain ⟨rfl, -, hRest⟩ := recordText_append_inj hHead hHead' hBracket hBracket h
      exact ⟨rfl, hRest⟩
    | cons next' records' =>
      obtain ⟨-, hStop, -⟩ := recordText_append_inj hHead hHead' hBracket hBar h
      exact absurd hStop (by decide)
  | cons next records ih =>
    cases records' with
    | nil =>
      obtain ⟨-, hStop, -⟩ := recordText_append_inj hHead hHead' hBar hBracket h
      exact absurd hStop (by decide)
    | cons next' records' =>
      obtain ⟨rfl, -, hRest⟩ := recordText_append_inj hHead hHead' hBar hBar h
      have hTail := fun r hr => hRecords r (List.mem_cons_of_mem _ hr)
      have hTail' := fun r hr => hRecords' r (List.mem_cons_of_mem _ hr)
      obtain ⟨hSame, hEnd⟩ := ih hTail hTail' hRest (hTail next List.mem_cons_self)
        (hTail' next' List.mem_cons_self)
      exact ⟨by rw [hSame], hEnd⟩

/-- What follows the records: the price, the owner and the next lines. -/
def afterRecords (r : DomainRecord) (x : Bytes) : Bytes :=
  58 :: (decimal r.listPrice.toNat ++ 58 :: (hexEncode (r.ownerKey.getD []) ++ 10 :: x))

theorem line_append (r : DomainRecord) (x : Bytes) :
    r.line ++ x = r.domain ++ 58 :: (decimalInt r.expirySlot.toInt ++
      58 :: 91 :: recordsThen (afterRecords r x) r.records) := by
  rw [← recordsText_append]
  simp [DomainRecord.line, afterRecords, utf8_colon, utf8_newline]

/-- No records at all cannot read as a list of records: the owner ends with the line. -/
theorem recordsThen_nil_ne_cons {r : DomainRecord} {x rest : Bytes} {rec : Record}
    {records : List Record} (hRec : (58 : UInt8) ∉ rec.type ∧ (58 : UInt8) ∉ rec.value) :
    recordsThen (afterRecords r x) [] ≠ recordsThen rest (rec :: records) := by
  intro h
  have hStop : ∃ stop more, recordsThen rest (rec :: records) = recordText rec ++ stop :: more ∧
      (stop = 93 ∨ stop = 124) := by
    cases records with
    | nil => exact ⟨93, rest, rfl, .inl rfl⟩
    | cons next records => exact ⟨124, _, rfl, .inr rfl⟩
  obtain ⟨stop, more, hText, hStop⟩ := hStop
  rw [hText] at h
  simp only [recordsThen, afterRecords, recordText, List.append_assoc, List.cons_append] at h
  obtain ⟨-, h⟩ := append_sep_inj (a := [93]) (by decide) hRec.1 h
  obtain ⟨-, h⟩ := append_sep_inj ((decimal_alnum _).not_mem (by decide)) hRec.2 h
  have hNumber : ¬ NumberOrHex stop := by
    rcases hStop with rfl | rfl <;> (unfold NumberOrHex; decide)
  obtain ⟨-, hNewline, -⟩ := append_stop_inj (numberOrHex_of_alnum (hexEncode_alnum _))
    (numberOrHex_decimalInt _) (by unfold NumberOrHex; decide) hNumber h
  rcases hStop with rfl | rfl <;> exact absurd hNewline (by decide)

theorem recordsThen_inj {r r' : DomainRecord} {x y : Bytes} (hr : Colonless r)
    (hr' : Colonless r')
    (h : recordsThen (afterRecords r x) r.records = recordsThen (afterRecords r' y) r'.records) :
    r.records = r'.records ∧ afterRecords r x = afterRecords r' y := by
  have hFields := hr.fields
  have hFields' := hr'.fields
  cases hRecords : r.records with
  | nil =>
    cases hRecords' : r'.records with
    | nil =>
      rw [hRecords, hRecords'] at h
      exact ⟨rfl, (List.cons.inj h).2⟩
    | cons rec records =>
      rw [hRecords, hRecords'] at h
      rw [hRecords'] at hFields'
      exact absurd h (recordsThen_nil_ne_cons (hFields' rec List.mem_cons_self))
  | cons rec records =>
    rw [hRecords] at h hFields
    cases hRecords' : r'.records with
    | nil =>
      rw [hRecords'] at h
      exact absurd h.symm (recordsThen_nil_ne_cons (hFields rec List.mem_cons_self))
    | cons rec' records' =>
      rw [hRecords'] at h hFields'
      exact recordsThen_cons_inj hFields hFields' h

theorem seen_of_line_eq {r r' : DomainRecord} {x y : Bytes} (hr : Colonless r)
    (hr' : Colonless r') (h : r.line ++ x = r'.line ++ y) :
    DomainRecord.seen r = DomainRecord.seen r' ∧ x = y := by
  rw [line_append, line_append] at h
  obtain ⟨hName, h⟩ := append_sep_inj hr.name hr'.name h
  obtain ⟨hSlot, h⟩ := append_sep_inj (not_mem_decimalInt (by decide) (by decide) _)
    (not_mem_decimalInt (by decide) (by decide) _) h
  obtain ⟨hRecords, h⟩ := recordsThen_inj hr hr' (List.cons.inj h).2
  obtain ⟨hPrice, h⟩ := append_sep_inj ((decimal_alnum _).not_mem (by decide))
    ((decimal_alnum _).not_mem (by decide)) (List.cons.inj h).2
  obtain ⟨hOwner, hRest⟩ := append_sep_inj ((hexEncode_alnum _).not_mem (by decide))
    ((hexEncode_alnum _).not_mem (by decide)) h
  refine ⟨?_, hRest⟩
  have hExpiry := Int64.toInt_inj.mp (decimalInt_injective hSlot)
  have hListPrice := UInt64.toNat_inj.mp (decimal_injective hPrice)
  have hOwnerKey := hexEncode_injective hOwner
  simp only [DomainRecord.seen, hName, hRecords, hExpiry, hListPrice, hOwnerKey]

/-! ## The index -/

/-- What the index says about the domain with a key. -/
def seenAt (t : AVLTree) (key : Bytes) : Option DomainRecord :=
  (t.search key).map fun node =>
    { domain := node.1.domainName, records := node.1.records, expirySlot := node.1.expirySlot
      listPrice := node.2.listPrice, ownerKey := some (node.2.ownerKey.getD []) }

theorem mem_seen_iff {E : External} {t : AVLTree} (hWell : WellIndexed E t) {key : Bytes}
    {r : DomainRecord} :
    seenAt t key = some r ↔
      r ∈ (getAllRecords t).map DomainRecord.seen ∧ key = hashDomain E r.domain := by
  simp only [seenAt, Option.map_eq_some_iff, getAllRecords, List.map_map, List.mem_map,
    Function.comp_apply, DomainRecord.seen]
  constructor
  · rintro ⟨node, hSearch, rfl⟩
    have hMem := t.mem_of_search hSearch
    exact ⟨⟨(key, node), hMem, rfl⟩, hWell _ hMem⟩
  · rintro ⟨⟨e, hMem, rfl⟩, hKey⟩
    have hSearch := t.search_of_mem hMem
    rw [hWell e hMem] at hSearch
    exact ⟨e.2, by rw [hKey]; exact hSearch, rfl⟩

theorem seenAt_eq_of_indexText_eq {E : External} {t t' : AVLTree} (hWell : WellIndexed E t)
    (hWell' : WellIndexed E t') (hPlain : ∀ r ∈ getAllRecords t, Colonless r)
    (hPlain' : ∀ r ∈ getAllRecords t', Colonless r)
    (h : indexText (getAllRecords t) = indexText (getAllRecords t')) : seenAt t = seenAt t' := by
  let le : DomainRecord → DomainRecord → Prop := fun a b => (compare a.domain b.domain).isLE
  have hPerm := List.perm_insertionSort le (getAllRecords t)
  have hPerm' := List.perm_insertionSort le (getAllRecords t')
  have hSorted := map_eq_of_flatMap_eq DomainRecord.seen DomainRecord.line_ne_nil
    (fun _ _ _ _ => seen_of_line_eq) (fun r hr => hPlain r (hPerm.mem_iff.mp hr))
    (fun r hr => hPlain' r (hPerm'.mem_iff.mp hr)) h
  have hSame : ((getAllRecords t).map DomainRecord.seen).Perm
      ((getAllRecords t').map DomainRecord.seen) := by
    refine (hPerm.map _).symm.trans ?_
    rw [hSorted]
    exact hPerm'.map _
  funext key
  ext r
  rw [mem_seen_iff hWell, mem_seen_iff hWell', hSame.mem_iff]

/-- A registration of `a.bdns` with the given records. -/
def registrationLog (tid : Int64) (records : List Record) : List (Int64 × List Transaction) :=
  [(1, [StandIn.commitTx 1 0 [1]]),
    (4, [StandIn.registryTx
      { tid, type := .reveal, nonce := 1, redeemsTxID := 1, salt := [1], expirySlot := 1000
        domainName := utf8 "a.bdns", recipient := utf8 "registry", records }])]

/-- The index after it. -/
def registeredIndex (tid : Int64) (records : List Record) : IndexManager :=
  (StandIn.afterLog (registrationLog tid records)).1.index

instance (r : DomainRecord) : Decidable (Colonless r) :=
  decidable_of_iff ((58 : UInt8) ∉ r.domain ∧
      ∀ rec ∈ r.records, (58 : UInt8) ∉ rec.type ∧ (58 : UInt8) ∉ rec.value)
    ⟨fun h => ⟨h.1, h.2⟩, fun h => ⟨h.name, h.fields⟩⟩

instance (E : External) (t : AVLTree) : Decidable (WellIndexed E t) :=
  inferInstanceAs (Decidable (∀ e ∈ t.root.inOrder, e.1 = hashDomain E e.2.1.domainName))

def addressRecord : Record := ⟨utf8 "A", utf8 "10.0.0.1", 0⟩

/-- One record whose value goes on like a second record, and the two records. -/
def oneRecord : List Record := [⟨utf8 "A", utf8 "10.0.0.1:0|TXT:x", 0⟩]

def twoRecords : List Record := [⟨utf8 "A", utf8 "10.0.0.1", 0⟩, ⟨utf8 "TXT", utf8 "x", 0⟩]

end Bdns.Safety
