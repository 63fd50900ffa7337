import Bdns.Index.IndexHash

/-!
# The overlay behaves like the index

The same writes are run through an overlay and on the index itself. What the two have in common
is the node of each domain: the overlay keeps it in two pieces, an entry of the journal and the
node of the real index, and a commit puts the pieces together (`pendingNode`).
-/

namespace Bdns.Index

open Lib Blockchain Std

/-! ## The operations on the index itself -/

/-- The same write, made on the index directly. -/
def OverlayOp.applyReal (E : External) (im : IndexManager) : OverlayOp → IndexManager
  | add domain tx blockIndex txIndex slotsPerDay =>
    im.add E domain tx blockIndex txIndex slotsPerDay
  | setOwner domain ownerKey => im.setOwner E domain ownerKey
  | setListPrice domain price => im.setListPrice E domain price
  | markAsSpent txID => im.markAsSpent txID

def runReal (E : External) (im : IndexManager) (ops : List OverlayOp) : IndexManager :=
  ops.foldl (OverlayOp.applyReal E) im

/-- Owner and price are set for domains that the index knows. -/
def OverlayOp.Allowed (E : External) (o : IndexOverlay) : OverlayOp → Prop
  | setOwner domain _ => (o.getDomain E domain).isSome
  | setListPrice domain _ => (o.getDomain E domain).isSome
  | _ => True

instance (E : External) (o : IndexOverlay) : (op : OverlayOp) → Decidable (op.Allowed E o)
  | .add .. => inferInstanceAs (Decidable True)
  | .setOwner domain _ => inferInstanceAs (Decidable ((o.getDomain E domain).isSome = true))
  | .setListPrice domain _ => inferInstanceAs (Decidable ((o.getDomain E domain).isSome = true))
  | .markAsSpent _ => inferInstanceAs (Decidable True)

/-- Every write of a run is allowed when it is made. -/
def Guarded (E : External) : IndexOverlay → List OverlayOp → Prop
  | _, [] => True
  | o, op :: ops => op.Allowed E o ∧ Guarded E (op.apply E o) ops

/-- Two indexes that answer alike about the given names. An owner is looked at through `view`. -/
structure SameAnswers {α : Type} (view : Option Bytes → α) (names : Set Bytes)
    (a b : DomainIndexer) : Prop where
  getDomain : ∀ d ∈ names, a.getDomain d = b.getDomain d
  getOwner : ∀ d ∈ names, view (a.getOwner d) = view (b.getOwner d)
  getListPrice : ∀ d ∈ names, a.getListPrice d = b.getListPrice d
  isForSale : ∀ d ∈ names, a.isForSale d = b.isForSale d
  isSpent : ∀ txID, a.isSpent txID = b.isSpent txID

/-! ## The node of a domain, in two pieces -/

namespace IndexOverlay

variable {E : External}

/-- The node that a commit would leave for a domain. -/
def pendingNode (E : External) (o : IndexOverlay) (d : Bytes) :
    Option (Transaction × DomainMetadata) :=
  match o.journal[d]? with
  | some entry => installEntry entry (o.real.tree.search (hashDomain E d))
  | none => o.real.tree.search (hashDomain E d)

/-- Every journal entry has a transaction: its own, or that of the real index. -/
def Grounded (E : External) (o : IndexOverlay) : Prop :=
  ∀ (d : Bytes) (entry : OverlayEntry), o.journal[d]? = some entry →
    entry.tx.isSome ∧ (entry.added = false → entry.tx = o.real.getDomain E d)

/-- The fields of an entry that are set, over the metadata of the node. -/
def mergeMetadata (entry : OverlayEntry) (m : DomainMetadata) : DomainMetadata where
  listPrice := if entry.listPriceSet then entry.listPrice else m.listPrice
  ownerKey := if entry.ownerSet then some entry.ownerKey else m.ownerKey

theorem installEntry_of_tx {entry : OverlayEntry} {old : Option (Transaction × DomainMetadata)}
    {tx : Transaction} (hTx : entry.tx = some tx)
    (hOld : entry.added = false → old.map Prod.fst = some tx) :
    installEntry entry old = some (tx, mergeMetadata entry ((old.map Prod.snd).getD {})) := by
  unfold installEntry OverlayEntry.addedTx mergeMetadata
  cases hAdded : entry.added with
  | true => simp [hTx]
  | false =>
    obtain ⟨node, rfl, rfl⟩ := Option.map_eq_some_iff.mp (hOld hAdded)
    simp

theorem Grounded.pendingNode_eq {o : IndexOverlay} (h : o.Grounded E) {d : Bytes}
    {entry : OverlayEntry} (hEntry : o.journal[d]? = some entry) :
    ∃ tx, entry.tx = some tx ∧
      o.pendingNode E d = some (tx, mergeMetadata entry (o.real.metadata E d)) := by
  obtain ⟨hTx, hReal⟩ := h d entry hEntry
  obtain ⟨tx, hTx⟩ := Option.isSome_iff_exists.mp hTx
  refine ⟨tx, hTx, ?_⟩
  unfold pendingNode
  rw [hEntry]
  refine installEntry_of_tx hTx fun hAdded => ?_
  rw [← IndexManager.getDomain_eq, ← hReal hAdded, hTx]

/-- The answers of the overlay are read off the pending nodes. -/
theorem answers_eq {o : IndexOverlay} (h : o.Grounded E) (d : Bytes) :
    o.getDomain E d = (o.pendingNode E d).map Prod.fst ∧
      o.getOwner E d = (o.pendingNode E d).bind (fun node => node.2.ownerKey) ∧
      o.getListPrice E d = ((o.pendingNode E d).map fun node => node.2.listPrice).getD 0 := by
  unfold IndexOverlay.getDomain IndexOverlay.getOwner IndexOverlay.getListPrice
  cases hEntry : o.journal[d]? with
  | none =>
    have hNode : o.pendingNode E d = o.real.tree.search (hashDomain E d) := by
      unfold pendingNode
      rw [hEntry]
    rw [hNode]
    exact ⟨IndexManager.getDomain_eq _ _, rfl, rfl⟩
  | some entry =>
    obtain ⟨tx, hTx, hNode⟩ := h.pendingNode_eq hEntry
    rw [hNode]
    dsimp only [Option.map_some, Option.bind_some, Option.getD_some, mergeMetadata]
    rw [IndexManager.getOwner_eq, IndexManager.getListPrice_eq]
    exact ⟨hTx, rfl, rfl⟩

/-! ### What a write does to the pieces -/

theorem pendingNode_add {o : IndexOverlay} (h : o.Grounded E) (d d' : Bytes) (tx : Transaction)
    (blockIndex : Int64) (txIndex : Nat) (slotsPerDay : Int64) :
    (o.add d tx blockIndex txIndex slotsPerDay).pendingNode E d' =
      if d = d' then some (tx, ((o.pendingNode E d).map Prod.snd).getD {})
      else o.pendingNode E d' := by
  by_cases hd : d = d'
  · subst hd
    rw [if_pos rfl]
    cases hEntry : o.journal[d]? with
    | none => simp [pendingNode, add, hEntry, installEntry, OverlayEntry.addedTx]
    | some entry =>
      obtain ⟨old, -, hNode⟩ := h.pendingNode_eq hEntry
      rw [hNode]
      simp [pendingNode, add, hEntry, installEntry, OverlayEntry.addedTx, mergeMetadata,
        IndexManager.metadata]
  · simp [pendingNode, add, getElem?_insert_eq_ite, hd]

/-- A new entry of the journal starts as the real index has it. -/
theorem pendingNode_entryFor (o : IndexOverlay) (d : Bytes) :
    o.pendingNode E d =
      installEntry (o.entryFor E d) (o.real.tree.search (hashDomain E d)) := by
  unfold pendingNode entryFor
  cases o.journal[d]? with
  | some entry => rfl
  | none => cases o.real.tree.search (hashDomain E d) <;> rfl

theorem pendingNode_setOwner (o : IndexOverlay) (d d' : Bytes) (ownerKey : Option Bytes) :
    (o.setOwner E d ownerKey).pendingNode E d' =
      (o.pendingNode E d').map fun node =>
        if d = d' then (node.1, { node.2 with ownerKey := some (ownerKey.getD []) }) else node := by
  by_cases hd : d = d'
  · subst hd
    have hNew : (o.setOwner E d ownerKey).pendingNode E d = installEntry
        { o.entryFor E d with ownerKey := ownerKey.getD [], ownerSet := true }
        (o.real.tree.search (hashDomain E d)) := by
      simp [pendingNode, setOwner]
    rw [hNew, pendingNode_entryFor o d]
    simp [installEntry, OverlayEntry.addedTx, Function.comp_def]
  · simp [pendingNode, setOwner, getElem?_insert_eq_ite, hd]

theorem pendingNode_setListPrice (o : IndexOverlay) (d d' : Bytes) (price : UInt64) :
    (o.setListPrice E d price).pendingNode E d' =
      (o.pendingNode E d').map fun node =>
        if d = d' then (node.1, { node.2 with listPrice := price }) else node := by
  by_cases hd : d = d'
  · subst hd
    have hNew : (o.setListPrice E d price).pendingNode E d = installEntry
        { o.entryFor E d with listPrice := price, listPriceSet := true }
        (o.real.tree.search (hashDomain E d)) := by
      simp [pendingNode, setListPrice]
    rw [hNew, pendingNode_entryFor o d]
    simp [installEntry, OverlayEntry.addedTx, Function.comp_def]
  · simp [pendingNode, setListPrice, getElem?_insert_eq_ite, hd]

end IndexOverlay

/-! ## The two runs side by side -/

section Runs

variable {E : External} {α : Type} {view : Option Bytes → α} {names : Set Bytes}
  {real im : IndexManager} {o : IndexOverlay}

/-- What the answers about a domain depend on. -/
def viewNode (view : Option Bytes → α) (node : Transaction × DomainMetadata) :
    Transaction × UInt64 × α :=
  (node.1, node.2.listPrice, view node.2.ownerKey)

/-- The overlay and the index after the same writes. -/
structure Mirrors (E : External) (view : Option Bytes → α) (names : Set Bytes)
    (real : IndexManager) (o : IndexOverlay) (im : IndexManager) : Prop where
  real_eq : o.real = real
  grounded : o.Grounded E
  keys : ∀ d ∈ o.journal, d ∈ names
  nodes : ∀ d ∈ names, (o.pendingNode E d).map (viewNode view) =
    (im.tree.search (hashDomain E d)).map (viewNode view)
  spent : ∀ txID, o.isSpent txID = im.isSpent txID

theorem mirrors_newIndexOverlay : Mirrors E view names real (.newIndexOverlay real) real where
  real_eq := rfl
  grounded d entry hEntry := by simp [IndexOverlay.newIndexOverlay] at hEntry
  keys d hd := by simp [IndexOverlay.newIndexOverlay] at hd
  nodes _ _ := rfl
  spent _ := rfl

theorem grounded_insert (h : o.Grounded E) {d : Bytes} {entry : OverlayEntry}
    (hTx : entry.tx.isSome) (hReal : entry.added = false → entry.tx = o.real.getDomain E d) :
    ({ o with journal := o.journal.insert d entry } : IndexOverlay).Grounded E := by
  intro d' entry' hEntry
  rw [getElem?_insert_eq_ite] at hEntry
  split at hEntry
  · rename_i hd
    obtain rfl := Option.some.inj hEntry
    exact hd ▸ ⟨hTx, hReal⟩
  · exact h d' entry' hEntry

/-- The entry that a write to the metadata starts from, where the domain is known. -/
theorem entryFor_grounded (h : o.Grounded E) {d : Bytes} (hKnown : (o.getDomain E d).isSome) :
    (o.entryFor E d).tx.isSome ∧
      ((o.entryFor E d).added = false → (o.entryFor E d).tx = o.real.getDomain E d) := by
  refine ⟨by rwa [IndexOverlay.getDomain_entryFor], ?_⟩
  unfold IndexOverlay.entryFor
  cases hEntry : o.journal[d]? with
  | none => exact fun _ => rfl
  | some entry => exact (h d entry hEntry).2

theorem mem_journal_insert {d d' : Bytes} {entry : OverlayEntry}
    (hKeys : ∀ d ∈ o.journal, d ∈ names) (hd : d ∈ names)
    (hMem : d' ∈ o.journal.insert d entry) : d' ∈ names := by
  rw [ExtTreeMap.mem_insert, LawfulEqCmp.compare_eq_iff_eq] at hMem
  rcases hMem with rfl | hMem
  · exact hd
  · exact hKeys d' hMem

/-- One write to the metadata of a node, seen through `view`. -/
theorem view_setMetadata {node node' : Option (Transaction × DomainMetadata)}
    (h : node.map (viewNode view) = node'.map (viewNode view))
    {f f' : DomainMetadata → DomainMetadata}
    (hPrice : ∀ m m', m.listPrice = m'.listPrice → (f m).listPrice = (f' m').listPrice)
    (hOwner : ∀ m m', view m.ownerKey = view m'.ownerKey →
      view (f m).ownerKey = view (f' m').ownerKey) :
    (node.map fun p => (p.1, f p.2)).map (viewNode view) =
      (node'.map fun p => (p.1, f' p.2)).map (viewNode view) := by
  cases node with
  | none =>
    cases node' with
    | none => rfl
    | some node' => simp at h
  | some node =>
    cases node' with
    | none => simp at h
    | some node' =>
      simp only [Option.map_some, viewNode, Option.some.injEq, Prod.mk.injEq] at h ⊢
      exact ⟨h.1, hPrice _ _ h.2.1, hOwner _ _ h.2.2⟩

theorem Mirrors.add (h : Mirrors E view names real o im) (hInj : Set.InjOn E.sha256 names)
    {d : Bytes} (hd : d ∈ names) (tx : Transaction) (blockIndex : Int64) (txIndex : Nat)
    (slotsPerDay : Int64) :
    Mirrors E view names real (o.add d tx blockIndex txIndex slotsPerDay)
      (im.add E d tx blockIndex txIndex slotsPerDay) where
  real_eq := h.real_eq
  grounded := grounded_insert h.grounded rfl fun hAdded => absurd hAdded (by simp)
  keys _ hMem := mem_journal_insert h.keys hd hMem
  nodes d' hd' := by
    have hSearch : (im.add E d tx blockIndex txIndex slotsPerDay).tree.search (hashDomain E d') =
        if hashDomain E d = hashDomain E d' then
          some (tx, ((im.tree.search (hashDomain E d)).map Prod.snd).getD {})
        else im.tree.search (hashDomain E d') := AVLTree.search_add ..
    rw [hSearch, IndexOverlay.pendingNode_add h.grounded]
    by_cases hSame : d = d'
    · subst hSame
      have hNodes := h.nodes d hd
      rw [if_pos rfl, if_pos rfl]
      cases hNode : o.pendingNode E d with
      | none =>
        have hNone : im.tree.search (hashDomain E d) = none := by
          simpa [hNode, eq_comm] using hNodes
        rw [hNone]
      | some node =>
        obtain ⟨node', hNode', hView⟩ : ∃ node', im.tree.search (hashDomain E d) = some node' ∧
            viewNode view node' = viewNode view node := by
          simpa [hNode, eq_comm, Option.map_eq_some_iff] using hNodes.symm
        rw [hNode']
        obtain ⟨-, hPrice, hOwner⟩ : node'.1 = node.1 ∧ node'.2.listPrice = node.2.listPrice ∧
            view node'.2.ownerKey = view node.2.ownerKey := by
          simpa [viewNode] using hView
        simp [viewNode, hPrice, hOwner]
    · have hKey : hashDomain E d ≠ hashDomain E d' := fun hEq =>
        hSame (hInj hd hd' (hexEncode_injective hEq))
      rw [if_neg hSame, if_neg hKey]
      exact h.nodes d' hd'
  spent := h.spent

/-- A write to the metadata of a known domain, made on both sides. -/
theorem Mirrors.setMetadata (h : Mirrors E view names real o im)
    (hInj : Set.InjOn E.sha256 names) {d : Bytes} (hd : d ∈ names)
    {entry : OverlayEntry} {f f' : DomainMetadata → DomainMetadata}
    (hTx : entry.tx.isSome) (hReal : entry.added = false → entry.tx = o.real.getDomain E d)
    (hPending : ∀ d', ({ o with journal := o.journal.insert d entry } : IndexOverlay).pendingNode
      E d' = (o.pendingNode E d').map fun node => if d = d' then (node.1, f node.2) else node)
    (hPrice : ∀ m m', m.listPrice = m'.listPrice → (f m).listPrice = (f' m').listPrice)
    (hOwner : ∀ m m', view m.ownerKey = view m'.ownerKey →
      view (f m).ownerKey = view (f' m').ownerKey) :
    Mirrors E view names real { o with journal := o.journal.insert d entry }
      (im.setMetadata E d f') where
  real_eq := h.real_eq
  grounded := grounded_insert h.grounded hTx hReal
  keys _ hMem := mem_journal_insert h.keys hd hMem
  nodes d' hd' := by
    rw [hPending, IndexOverlay.search_setMetadata]
    by_cases hSame : d = d'
    · subst hSame
      simpa using view_setMetadata (h.nodes d hd) hPrice hOwner
    · have hKey : hashDomain E d ≠ hashDomain E d' := fun hEq =>
        hSame (hInj hd hd' (hexEncode_injective hEq))
      simpa [hSame, hKey] using h.nodes d' hd'
  spent := h.spent

theorem Mirrors.apply (h : Mirrors E view names real o im) (hInj : Set.InjOn E.sha256 names)
    {op : OverlayOp} (hAllowed : op.Allowed E o) (hNames : ∀ d, op.domain? = some d → d ∈ names)
    (hView : ∀ d ownerKey, op = .setOwner d ownerKey →
      view (some (ownerKey.getD [])) = view ownerKey) :
    Mirrors E view names real (op.apply E o) (op.applyReal E im) := by
  cases op with
  | add d tx blockIndex txIndex slotsPerDay =>
    exact h.add hInj (hNames d rfl) tx blockIndex txIndex slotsPerDay
  | setOwner d ownerKey =>
    obtain ⟨hTx, hReal⟩ := entryFor_grounded h.grounded hAllowed
    exact h.setMetadata (f := fun m => { m with ownerKey := some (ownerKey.getD []) }) hInj
      (hNames d rfl) hTx hReal (fun d' => IndexOverlay.pendingNode_setOwner o d d' ownerKey)
      (fun _ _ hEq => hEq) (fun _ _ _ => hView d ownerKey rfl)
  | setListPrice d price =>
    obtain ⟨hTx, hReal⟩ := entryFor_grounded h.grounded hAllowed
    exact h.setMetadata (f := fun m => { m with listPrice := price }) hInj (hNames d rfl) hTx
      hReal (fun d' => IndexOverlay.pendingNode_setListPrice o d d' price) (fun _ _ _ => rfl)
      (fun _ _ hEq => hEq)
  | markAsSpent txID =>
    refine ⟨h.real_eq, h.grounded, h.keys, h.nodes, fun txID' => ?_⟩
    have hSpent := h.spent txID'
    unfold IndexOverlay.isSpent IndexManager.isSpent at hSpent ⊢
    simp only [OverlayOp.apply, OverlayOp.applyReal, IndexOverlay.markAsSpent,
      IndexManager.markAsSpent, Function.update_apply, ← hSpent]
    split <;> simp

theorem Mirrors.run {ops : List OverlayOp} (h : Mirrors E view names real o im)
    (hInj : Set.InjOn E.sha256 names) (hGuarded : Guarded E o ops)
    (hNames : ∀ op ∈ ops, ∀ d, op.domain? = some d → d ∈ names)
    (hView : ∀ d ownerKey, .setOwner d ownerKey ∈ ops →
      view (some (ownerKey.getD [])) = view ownerKey) :
    Mirrors E view names real (runOps E o ops) (runReal E im ops) := by
  induction ops generalizing o im with
  | nil => exact h
  | cons op ops ih =>
    have hNext := h.apply hInj hGuarded.1 (hNames op List.mem_cons_self)
      fun d ownerKey hOp => hView d ownerKey (hOp ▸ List.mem_cons_self)
    exact ih hNext hGuarded.2 (fun op hOp => hNames op (List.mem_cons_of_mem _ hOp))
      fun d ownerKey hOp => hView d ownerKey (List.mem_cons_of_mem _ hOp)

/-! ## The answers -/

/-- The answers that are read off nodes that look alike. -/
theorem answers_of_view {node node' : Option (Transaction × DomainMetadata)}
    (h : node.map (viewNode view) = node'.map (viewNode view)) :
    node.map Prod.fst = node'.map Prod.fst ∧
      view (node.bind fun p => p.2.ownerKey) = view (node'.bind fun p => p.2.ownerKey) ∧
      (node.map fun p => p.2.listPrice).getD 0 = (node'.map fun p => p.2.listPrice).getD 0 := by
  cases node with
  | none =>
    cases node' with
    | none => exact ⟨rfl, rfl, rfl⟩
    | some node' => simp at h
  | some node =>
    cases node' with
    | none => simp at h
    | some node' =>
      simp only [Option.map_some, viewNode, Option.some.injEq, Prod.mk.injEq] at h
      simp [h.1, h.2.1, h.2.2]

theorem Mirrors.sameAnswers (h : Mirrors E view names real o im)
    (range : List (Bytes × OverlayEntry) → List (Bytes × OverlayEntry)) :
    SameAnswers view names (o.indexer E range) (im.indexer E) := by
  have hPrice : ∀ d ∈ names, o.getListPrice E d = im.getListPrice E d := fun d hd =>
    ((IndexOverlay.answers_eq h.grounded d).2.2).trans (answers_of_view (h.nodes d hd)).2.2
  refine ⟨fun d hd => ?_, fun d hd => ?_, hPrice, fun d hd => ?_, h.spent⟩
  · have hDomain := (answers_of_view (h.nodes d hd)).1
    rw [← (IndexOverlay.answers_eq h.grounded d).1, ← IndexManager.getDomain_eq] at hDomain
    exact hDomain
  · have hOwner := (answers_of_view (h.nodes d hd)).2.1
    rw [← (IndexOverlay.answers_eq h.grounded d).2.1] at hOwner
    exact hOwner
  · have hOverlay := o.isForSale_eq (E := E) d
    rw [hPrice d hd, ← IndexManager.isForSale_eq] at hOverlay
    exact hOverlay

/-- A commit leaves the pending nodes in the index. -/
theorem Mirrors.commit (h : Mirrors E view names real o im) (hInj : Set.InjOn E.sha256 names)
    {range : List (Bytes × OverlayEntry) → List (Bytes × OverlayEntry)}
    (hRange : ∀ xs, (range xs).Perm xs) :
    Mirrors E view names (o.commit E range real) (.newIndexOverlay (o.commit E range real)) im where
  real_eq := rfl
  grounded d entry hEntry := by simp [IndexOverlay.newIndexOverlay] at hEntry
  keys d hd := by simp [IndexOverlay.newIndexOverlay] at hd
  nodes d hd := by
    have hApart : ∀ d' ∈ o.journal, hashDomain E d' = hashDomain E d → d' = d :=
      fun d' hd' hEq => hInj (h.keys d' hd') hd (hexEncode_injective hEq)
    have hSearch := IndexOverlay.search_commit o hRange real d hApart
    have hPending : o.pendingNode E d =
        (o.commit E range real).tree.search (hashDomain E d) := by
      unfold IndexOverlay.pendingNode
      rw [h.real_eq]
      exact hSearch.symm
    rw [← h.nodes d hd, hPending]
    rfl
  spent txID := by
    have hSpent := h.spent txID
    unfold IndexOverlay.isSpent at hSpent
    rw [h.real_eq] at hSpent
    rw [← hSpent]
    show (false || (o.commit E range real).isSpent txID) = _
    rw [IndexOverlay.isSpent_commit, Bool.false_or, Bool.or_comm]

end Runs

theorem Guarded.of_prefix {E : External} {o : IndexOverlay} {done ops : List OverlayOp}
    (hPrefix : done <+: ops) (h : Guarded E o ops) : Guarded E o done := by
  induction done generalizing o ops with
  | nil => trivial
  | cons op done ih =>
    obtain ⟨rest, rfl⟩ := hPrefix
    exact ⟨h.1, ih (List.prefix_append done rest) h.2⟩

/-- The bytes of a slice: a nil slice has none. -/
def bytesOf (slice : Option Bytes) : Bytes := slice.getD []

/-- After every operation of a run the overlay answers like the index on which the operations
were made directly, and so does the real index after a commit at that point. Owners are compared
as byte strings; where no owner was set to nil, a nil owner is nil on all sides. -/
theorem overlay_answers_like_index {E : External} {real : IndexManager} {ops : List OverlayOp}
    {names : Set Bytes} (hInj : Set.InjOn E.sha256 names)
    (hNames : ∀ op ∈ ops, ∀ d, op.domain? = some d → d ∈ names)
    (hGuarded : Guarded E (.newIndexOverlay real) ops)
    {range : List (Bytes × OverlayEntry) → List (Bytes × OverlayEntry)}
    (hRange : ∀ xs, (range xs).Perm xs) {done : List OverlayOp} (hDone : done <+: ops) :
    let o := runOps E (.newIndexOverlay real) done
    let direct := (runReal E real done).indexer E
    let committed := (o.commit E range real).indexer E
    (SameAnswers bytesOf names (o.indexer E range) direct ∧
        SameAnswers bytesOf names committed direct) ∧
      ((∀ d, .setOwner d none ∉ ops) →
        SameAnswers id names (o.indexer E range) direct ∧ SameAnswers id names committed direct) := by
  intro o direct committed
  -- one argument for both ways of looking at owners
  have hBoth : ∀ {α : Type} (view : Option Bytes → α),
      (∀ d ownerKey, .setOwner d ownerKey ∈ ops → view (some (ownerKey.getD [])) = view ownerKey) →
      SameAnswers view names (o.indexer E range) direct ∧
        SameAnswers view names committed direct := by
    intro α view hView
    have hMirrors : Mirrors E view names real o (runReal E real done) :=
      mirrors_newIndexOverlay.run hInj (hGuarded.of_prefix hDone)
        (fun op hOp => hNames op (hDone.subset hOp))
        fun d ownerKey hOp => hView d ownerKey (hDone.subset hOp)
    exact ⟨hMirrors.sameAnswers range, (hMirrors.commit hInj hRange).sameAnswers id⟩
  refine ⟨hBoth bytesOf fun _ _ _ => rfl, fun hNil => hBoth id fun d ownerKey hOp => ?_⟩
  cases ownerKey with
  | none => exact absurd hOp (hNil d)
  | some key => rfl

/-- A new domain is listed for sale, and an old one changes hands. -/
def StandIn.marketOps : List OverlayOp :=
  [.add (utf8 "b.bdns") { tid := 7, type := .reveal, domainName := utf8 "b.bdns" } 2 0 1,
    .setOwner (utf8 "b.bdns") (some (utf8 "carol")), .setListPrice (utf8 "b.bdns") 40,
    .setListPrice (utf8 "a.bdns") 0, .setOwner (utf8 "a.bdns") (some (utf8 "dave")),
    .markAsSpent 3]

/-- An index with the domain `a.bdns`, for sale at 25 coins. -/
def StandIn.marketIndex : IndexManager :=
  runReal (.standIn fun _ => none) {}
    [.add (utf8 "a.bdns") { tid := 3, type := .reveal, domainName := utf8 "a.bdns" } 1 0 1,
      .setOwner (utf8 "a.bdns") (some (utf8 "alice")), .setListPrice (utf8 "a.bdns") 25]

/-- The overlay after the writes. -/
def StandIn.marketOverlay : IndexOverlay :=
  runOps (.standIn fun _ => none) (.newIndexOverlay StandIn.marketIndex) StandIn.marketOps

theorem overlay_answers_like_index_market :
    StandIn.marketOverlay.getListPrice (.standIn fun _ => none) (utf8 "b.bdns") = 40 ∧
      (StandIn.marketOverlay.commit (.standIn fun _ => none) id StandIn.marketIndex).getListPrice
          (.standIn fun _ => none) (utf8 "b.bdns") =
        (runReal (.standIn fun _ => none) StandIn.marketIndex StandIn.marketOps).getListPrice
          (.standIn fun _ => none) (utf8 "b.bdns") := by
  refine ⟨by decide +kernel, ?_⟩
  have hInj : Set.InjOn StandIn.digest ({utf8 "a.bdns", utf8 "b.bdns"} : Set Bytes) :=
    StandIn.injOn_of_forall [utf8 "a.bdns", utf8 "b.bdns"] (by simp) (by decide +kernel)
  have hNames : ∀ op ∈ StandIn.marketOps, ∀ d, op.domain? = some d →
      d ∈ ({utf8 "a.bdns", utf8 "b.bdns"} : Set Bytes) := by
    simp [StandIn.marketOps, OverlayOp.domain?]
  have hGuarded : Guarded (.standIn fun _ => none) (.newIndexOverlay StandIn.marketIndex)
      StandIn.marketOps := by
    unfold StandIn.marketOps
    refine ⟨?_, ?_, ?_, ?_, ?_, ?_, trivial⟩ <;> decide +kernel
  have hRange : ∀ xs : List (Bytes × OverlayEntry), (id xs).Perm xs := fun _ => .refl _
  exact (overlay_answers_like_index (E := .standIn fun _ => none) hInj hNames hGuarded hRange
    List.prefix_rfl).1.2.getListPrice (utf8 "b.bdns") (by simp)

end Bdns.Index
