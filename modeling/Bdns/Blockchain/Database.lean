import Bdns.Blockchain.Store

/-!
# Handles of the block store

A node reads its database through a handle, which keeps a tip of its own in memory: the iterator
starts there, `GetLatestBlock` at the tip in the database. `AddBlock` moves both. `OpenBlockchain`
reads the tip of the database, `CreateBlockchain` starts without one, whatever the database holds.

Between two openings the blocks that became the tip are a line: each one links to the one before it
and has the next index. The readers walk along this line.
-/

set_option linter.dupNamespace false

namespace Bdns.Blockchain

open Lib

/-- A `Blockchain` of the source: the tip in memory and the database. -/
structure Handle where
  tip : Option Bytes
  db : Blockchain

/-- `AddBlock` moves the tip to the block. -/
def Blockchain.movesTip (bc : Blockchain) (block : Block) : Prop :=
  bc.blocks block.hash = none ∧ (bc.put block).extendsTip block

instance (bc : Blockchain) (block : Block) : Decidable (bc.movesTip block) :=
  decidable_of_iff ((bc.blocks block.hash).isNone = true ∧ (bc.put block).extendsTip block) (by
    rw [Option.isNone_iff_eq_none]
    rfl)

theorem Blockchain.tip_addBlock (bc : Blockchain) (block : Block) :
    (bc.addBlock block).tip = if bc.movesTip block then some block.hash else bc.tip := by
  unfold addBlock movesTip
  by_cases hNew : bc.blocks block.hash = none
  · by_cases hExtends : (bc.put block).extendsTip block
    · simp [hNew, hExtends]
    · simp only [hNew, hExtends, Option.isSome_none, Bool.false_eq_true, and_false, if_false]
      rfl
  · simp [hNew, Option.isSome_iff_ne_none.mpr hNew]

namespace Handle

/-- `CreateBlockchain`, on a new or an existing database. -/
def createBlockchain (db : Blockchain) : Handle where
  tip := none
  db

/-- `OpenBlockchain`. -/
def openBlockchain (db : Blockchain) : Handle where
  tip := db.tip
  db

def addBlock (h : Handle) (block : Block) : Handle where
  tip := if h.db.movesTip block then some block.hash else h.tip
  db := h.db.addBlock block

/-! ## Readers -/

/-- The loop of the readers: the iterator walks back from a hash, and the reader is given each
block until it has its result or has seen the block of index 0. A hash without a block makes
`DeserializeBlock` panic. The walk has no result where the fuel runs out. -/
def walk {σ ρ : Type} (db : Blockchain) (visit : Block → σ → ρ ⊕ σ) (finish : σ → ρ) :
    Nat → Bytes → σ → Option (Go ρ)
  | 0, _, _ => none
  | fuel + 1, currentHash, state =>
    match db.blocks currentHash with
    | none => some (throw .logPanic)
    | some block =>
      match visit block state with
      | .inl result => some (pure result)
      | .inr state =>
        if block.index = 0 then some (pure (finish state))
        else walk db visit finish fuel block.prevHash state

/-- What `FindTransaction` does with a block. -/
def visitTransaction (tid : Int64) (block : Block) (_ : Unit) : Except Bytes Transaction ⊕ Unit :=
  match block.transactions.find? fun tx => tx.tid = tid with
  | some tx => .inl (.ok tx)
  | none => .inr ()

def transactionIsNotFound : Bytes := utf8 "Transaction is not found"

/-- `FindTransaction`. -/
def findTransaction (h : Handle) (fuel : Nat) (tid : Int64) :
    Option (Go (Except Bytes Transaction)) :=
  walk h.db (visitTransaction tid) (fun _ => .error transactionIsNotFound) fuel (h.tip.getD []) ()

/-- `GetBlockHashes`. -/
def getBlockHashes (h : Handle) (fuel : Nat) : Option (Go (List Bytes)) :=
  walk h.db (fun block blocks => .inr (blocks ++ [block.hash])) id fuel (h.tip.getD []) []

/-- `GetBlocksFrom`. -/
def getBlocksFrom (h : Handle) (fuel : Nat) (startHeight : Int64) : Option (Go (List Block)) :=
  walk h.db (fun block blocks => .inr (if startHeight ≤ block.index then block :: blocks else blocks))
    id fuel (h.tip.getD []) []

/-- `GetBlockByIndex`. -/
def getBlockByIndex (h : Handle) (fuel : Nat) (index : Int64) : Option (Go (Option Block)) :=
  walk h.db (fun block _ => if block.index = index then .inl (some block) else .inr ())
    (fun _ => none) fuel (h.tip.getD []) ()

/-- What a reader makes of a list of blocks. -/
def visitAll {σ ρ : Type} (visit : Block → σ → ρ ⊕ σ) (finish : σ → ρ) : List Block → σ → ρ
  | [], state => finish state
  | block :: blocks, state =>
    match visit block state with
    | .inl result => result
    | .inr state => visitAll visit finish blocks state

/-- On a chain the readers see its blocks from the last one to the first one. -/
theorem walk_of_chainTo {σ ρ : Type} {db : Blockchain} {hash : Bytes} {chain : List Block}
    (hChain : db.ChainTo hash chain) (visit : Block → σ → ρ ⊕ σ) (finish : σ → ρ) {fuel : Nat}
    (hFuel : chain.length ≤ fuel) (state : σ) :
    walk db visit finish fuel hash state =
      some (.ok (visitAll visit finish chain.reverse state)) := by
  induction hChain generalizing fuel state with
  | @genesis hash block stored first =>
    obtain ⟨fuel, rfl⟩ : ∃ n, fuel = n + 1 := ⟨fuel - 1, by simp at hFuel; omega⟩
    simp only [walk, stored, List.reverse_singleton, visitAll]
    cases visit block state with
    | inl result => rfl
    | inr state => simp [first, pure, Except.pure]
  | @step hash block before stored later _ ih =>
    rw [List.length_append, List.length_singleton] at hFuel
    obtain ⟨fuel, rfl⟩ : ∃ n, fuel = n + 1 := ⟨fuel - 1, by omega⟩
    simp only [walk, stored, List.reverse_append, List.reverse_singleton, List.singleton_append,
      visitAll]
    cases visit block state with
    | inl result => rfl
    | inr state =>
      dsimp only
      rw [if_neg later]
      exact ih (by omega) state

/-! ## Restarts -/

/-- What is done with one database. -/
inductive Action
  | addBlock (block : Block)
  | createBlockchain
  | openBlockchain

def act (h : Handle) : Action → Handle
  | .addBlock block => h.addBlock block
  | .createBlockchain => createBlockchain h.db
  | .openBlockchain => openBlockchain h.db

/-- The handle after some actions on a new database. -/
def after (actions : List Action) : Handle := actions.foldl act (createBlockchain {})

theorem after_concat (actions : List Action) (action : Action) :
    after (actions ++ [action]) = (after actions).act action := by
  simp [after]

/-- The two tips agree. -/
def Agrees (h : Handle) : Prop := h.tip = h.db.tip

theorem Agrees.addBlock {h : Handle} (hAgrees : h.Agrees) (block : Block) :
    (h.addBlock block).Agrees := by
  unfold Agrees Handle.addBlock
  rw [Blockchain.tip_addBlock, hAgrees]

/-- What one action does to the agreement. -/
theorem agrees_act {h : Handle} (hAgrees : h.Agrees) (action : Action) :
    (h.act action).Agrees ↔ (action = .createBlockchain → h.db.tip = none) := by
  cases action with
  | addBlock block => exact iff_of_true (hAgrees.addBlock block) nofun
  | createBlockchain => exact ⟨fun hSame _ => hSame.symm, fun hNone => (hNone rfl).symm⟩
  | openBlockchain => exact iff_of_true rfl nofun

/-- The tip in memory is the tip of the database throughout exactly where `CreateBlockchain` is
only called on a database without a tip. -/
theorem tips_agree_iff (actions : List Action) :
    (∀ before rest, actions = before ++ rest → (after before).tip = (after before).db.tip) ↔
      ∀ before rest, actions = before ++ .createBlockchain :: rest →
        (after before).db.tip = none := by
  constructor
  · intro hAgrees before rest hSplit
    have hBefore : (after before).Agrees := hAgrees before _ hSplit
    have hNext : ((after before).act .createBlockchain).Agrees := by
      rw [← after_concat]
      exact hAgrees _ rest (by rw [hSplit, List.append_assoc]; rfl)
    exact (agrees_act hBefore _).mp hNext rfl
  · intro hCreates before rest hSplit
    show (after before).Agrees
    induction before using List.reverseRecOn generalizing rest with
    | nil => rfl
    | append_singleton before action ih =>
      rw [List.append_assoc] at hSplit
      rw [after_concat, agrees_act (ih _ hSplit)]
      rintro rfl
      exact hCreates before rest hSplit

/-- A block without transactions. -/
def emptyBlock (index : Int64) (prevHash hash : Bytes) : Block :=
  { index, prevHash, hash, slotNumber := 0, slotLeader := [], transactions := [] }

/-- After a restart the node has its genesis block in the database and no tip in memory: the
latest block is there, and its readers panic. -/
theorem tip_lost_on_restart :
    (after [.addBlock (emptyBlock 0 [] [1]), .createBlockchain]).tip ≠
        (after [.addBlock (emptyBlock 0 [] [1]), .createBlockchain]).db.tip ∧
      (after [.addBlock (emptyBlock 0 [] [1]), .createBlockchain]).db.getLatestBlock.map (·.index) =
        some 0 ∧
      (after [.addBlock (emptyBlock 0 [] [1]), .createBlockchain]).getBlockHashes 1 =
        some (.error .logPanic) := by
  refine ⟨?_, ?_, ?_⟩
  · decide +kernel
  · decide +kernel
  · decide +kernel

/-! ## The line of tips -/

/-- The blocks that became the tip one after the other, and the last one of them. -/
inductive Line (db : Blockchain) (first : Block) : List Block → Block → Prop
  | first (stored : db.blocks first.hash = some first) : Line db first [first] first
  | next {line : List Block} {last block : Block} (before : Line db first line last)
      (stored : db.blocks block.hash = some block) (prev : block.prevHash = last.hash)
      (index : block.index = last.index + 1) : Line db first (line ++ [block]) block

section Line

variable {db : Blockchain} {first last : Block} {line : List Block}

theorem Line.addBlock (hLine : Line db first line last) (block : Block) :
    Line (db.addBlock block) first line last := by
  induction hLine with
  | first stored => exact .first (Blockchain.blocks_addBlock_of_some stored)
  | next _ stored prev index ih =>
    exact .next ih (Blockchain.blocks_addBlock_of_some stored) prev index

theorem Line.stored_last (hLine : Line db first line last) : db.blocks last.hash = some last := by
  cases hLine with
  | first stored => exact stored
  | next _ stored _ _ => exact stored

theorem Line.getLast (hLine : Line db first line last) : line.getLast? = some last := by
  cases hLine <;> simp

theorem Line.head (hLine : Line db first line last) : line.head? = some first := by
  induction hLine with
  | first stored => rfl
  | next _ _ _ _ ih => rw [List.head?_append, ih]; rfl

theorem Line.last_index (hLine : Line db first line last) (hFirst : first.index = 0) :
    last.index + 1 = Int64.ofNat line.length := by
  induction hLine with
  | first stored =>
    rw [hFirst]
    rfl
  | next _ _ _ index ih =>
    rw [index, ih, List.length_append, Int64.ofNat_add]
    rfl

theorem Line.index_last (hLine : Line db first line last) (hFirst : first.index = 0) :
    last.index = Int64.ofNat (line.length - 1) := by
  cases hLine with
  | first stored => exact hFirst
  | next before _ _ index =>
    rw [index, before.last_index hFirst, List.length_append, List.length_singleton,
      Nat.add_sub_cancel]

theorem Line.indexes (hLine : Line db first line last) (hFirst : first.index = 0) :
    line.map (fun b => b.index) = (List.range line.length).map Int64.ofNat := by
  induction hLine with
  | first stored => simp [hFirst]
  | next before _ _ index ih =>
    rw [List.map_append, ih, List.length_append, List.length_singleton, List.range_succ,
      List.map_append, List.map_singleton, List.map_singleton, index, before.last_index hFirst]

/-- As long as the index does not wrap around, the iterator walks along the line. -/
theorem Line.chainTo (hLine : Line db first line last) (hFirst : first.index = 0)
    (hShort : line.length ≤ 2 ^ 63) : db.ChainTo last.hash line := by
  induction hLine with
  | first stored => exact .genesis stored hFirst
  | @next line last block before stored prev index ih =>
    rw [List.length_append, List.length_singleton] at hShort
    have hLater : block.index ≠ 0 := by
      intro hZero
      rw [index, before.last_index hFirst] at hZero
      have hInt := congrArg Int64.toInt hZero
      rw [Int64.toInt_ofNat_of_lt (by omega)] at hInt
      have hNone : line = [] := List.eq_nil_of_length_eq_zero (Int.ofNat.inj hInt)
      have hHead := before.head
      rw [hNone] at hHead
      cases hHead
    exact .step stored hLater (prev ▸ ih (by omega))

end Line

/-! ## Sequences of blocks -/

def addBlocks (h : Handle) (blocks : List Block) : Handle := blocks.foldl addBlock h

/-- How often the tip moves while blocks are added. -/
def tipMoves (h : Handle) : List Block → Nat
  | [] => 0
  | block :: blocks =>
    (if h.db.movesTip block then 1 else 0) + tipMoves (h.addBlock block) blocks

theorem addBlocks_concat (h : Handle) (blocks : List Block) (block : Block) :
    h.addBlocks (blocks ++ [block]) = (h.addBlocks blocks).addBlock block := by
  simp [addBlocks]

theorem tipMoves_concat (h : Handle) (blocks : List Block) (block : Block) :
    h.tipMoves (blocks ++ [block]) =
      h.tipMoves blocks + if (h.addBlocks blocks).db.movesTip block then 1 else 0 := by
  induction blocks generalizing h with
  | nil =>
    show (if h.db.movesTip block then 1 else 0) + 0 = 0 + _
    rw [Nat.add_zero, Nat.zero_add]
    rfl
  | cons b blocks ih =>
    rw [List.cons_append, tipMoves, ih, tipMoves, Nat.add_assoc]
    rfl

/-- The handle of a new database with a first block and the blocks after it. -/
def stored (first : Block) (rest : List Block) : Handle :=
  (createBlockchain {}).addBlocks (first :: rest)

/-- How often its tip has moved. -/
def moves (first : Block) (rest : List Block) : Nat :=
  (createBlockchain {}).tipMoves (first :: rest)

theorem stored_concat (first : Block) (rest : List Block) (block : Block) :
    stored first (rest ++ [block]) = (stored first rest).addBlock block :=
  addBlocks_concat _ (first :: rest) block

theorem moves_concat (first : Block) (rest : List Block) (block : Block) :
    moves first (rest ++ [block]) =
      moves first rest + if (stored first rest).db.movesTip block then 1 else 0 :=
  tipMoves_concat _ (first :: rest) block

/-- The first block becomes the tip of a new database. -/
theorem movesTip_first (first : Block) : Blockchain.movesTip {} first := by
  refine ⟨rfl, fun last hLast => ?_⟩
  cases hLast

/-- A block that moves the tip continues the line. -/
theorem Line.next_of_movesTip {db : Blockchain} {first last block : Block} {line : List Block}
    (hLine : Line db first line last) (hTip : db.tip = some last.hash)
    (hMoves : db.movesTip block) : Line (db.addBlock block) first (line ++ [block]) block := by
  obtain ⟨hNew, hExtends⟩ := hMoves
  have hNe : last.hash ≠ block.hash := by
    intro hSame
    have hLast := hLine.stored_last
    rw [hSame, hNew] at hLast
    cases hLast
  have hLatest : (db.put block).getLatestBlock = some last := by
    simp [Blockchain.getLatestBlock, Blockchain.put, hTip, Function.update_of_ne hNe,
      hLine.stored_last]
  obtain ⟨hPrev, hIndex⟩ := hExtends last hLatest
  exact .next (hLine.addBlock block) (Blockchain.blocks_addBlock_self hNew) hPrev hIndex

/-- The blocks that became the tip are a line to the tip, in memory and in the database. -/
theorem exists_line (first : Block) (rest : List Block) :
    ∃ line last, Line (stored first rest).db first line last ∧ line.length = moves first rest ∧
      (stored first rest).tip = some last.hash ∧ (stored first rest).db.tip = some last.hash := by
  induction rest using List.reverseRecOn with
  | nil =>
    have hMoves := movesTip_first first
    have hTip : (stored first []).db.tip = some first.hash := by
      show (Blockchain.addBlock {} first).tip = _
      rw [Blockchain.tip_addBlock, if_pos hMoves]
    refine ⟨[first], first, .first ?_, ?_, ?_, hTip⟩
    · show (Blockchain.addBlock {} first).blocks first.hash = some first
      exact Blockchain.blocks_addBlock_self rfl
    · show 1 = (if Blockchain.movesTip {} first then 1 else 0) + 0
      rw [if_pos hMoves]
    · show (if Blockchain.movesTip {} first then some first.hash else none) = _
      rw [if_pos hMoves]
  | append_singleton rest block ih =>
    obtain ⟨line, last, hLine, hLength, hTip, hDbTip⟩ := ih
    rw [stored_concat, moves_concat]
    simp only [addBlock, Blockchain.tip_addBlock]
    by_cases hMoves : (stored first rest).db.movesTip block
    · refine ⟨line ++ [block], block, hLine.next_of_movesTip hDbTip hMoves, ?_, ?_, ?_⟩
      · rw [List.length_append, hLength, if_pos hMoves]
        rfl
      · rw [if_pos hMoves]
      · rw [if_pos hMoves]
    · refine ⟨line, last, hLine.addBlock block, ?_, ?_, ?_⟩
      · rw [if_neg hMoves, hLength, Nat.add_zero]
      · rw [if_neg hMoves, hTip]
      · rw [if_neg hMoves, hDbTip]

/-! ## What the readers find -/

theorem visitAll_find (index : Int64) (blocks : List Block) :
    visitAll (fun (block : Block) (_ : Unit) =>
        if block.index = index then Sum.inl (some block) else .inr ()) (fun _ => none) blocks () =
      blocks.find? fun block => block.index = index := by
  induction blocks with
  | nil => rfl
  | cons block blocks ih =>
    by_cases hIndex : block.index = index
    · simp [visitAll, hIndex]
    · simp [visitAll, hIndex, ih]

/-- The first transaction with the identifier, over the given blocks. -/
def firstTransaction (tid : Int64) (blocks : List Block) : Except Bytes Transaction :=
  match blocks.findSome? fun block => block.transactions.find? fun tx => tx.tid = tid with
  | some tx => .ok tx
  | none => .error transactionIsNotFound

theorem visitAll_transaction (tid : Int64) (blocks : List Block) :
    visitAll (visitTransaction tid) (fun _ => .error transactionIsNotFound) blocks () =
      firstTransaction tid blocks := by
  induction blocks with
  | nil => rfl
  | cons block blocks ih =>
    unfold firstTransaction at ih ⊢
    rw [List.findSome?_cons, visitAll, visitTransaction]
    cases block.transactions.find? fun tx => tx.tid = tid with
    | some tx => rfl
    | none => exact ih

theorem visitAll_hashes (blocks : List Block) (before : List Bytes) :
    visitAll (fun (block : Block) (hashes : List Bytes) => Sum.inr (hashes ++ [block.hash])) id
        blocks before =
      before ++ blocks.map fun block => block.hash := by
  induction blocks generalizing before with
  | nil => simp [visitAll]
  | cons block blocks ih => simp [visitAll, ih]

theorem visitAll_filter (startHeight : Int64) (blocks found : List Block) :
    visitAll (fun (block : Block) (found : List Block) =>
        Sum.inr (if startHeight ≤ block.index then block :: found else found)) id blocks found =
      (blocks.filter fun block => startHeight ≤ block.index).reverse ++ found := by
  induction blocks generalizing found with
  | nil => simp [visitAll]
  | cons block blocks ih =>
    by_cases hHigh : startHeight ≤ block.index
    · simp [visitAll, hHigh, ih]
    · simp [visitAll, hHigh, ih]

/-- In a list that is numbered from `offset`, the elements from a number on are a tail. -/
theorem filter_eq_drop {α : Type} {number : α → Int} {xs : List α} {offset : Nat}
    (hNumbers : xs.map number = (List.range' offset xs.length).map fun i : Nat => (i : Int)) (k : Int) :
    (xs.filter fun x => k ≤ number x) = xs.drop (k.toNat - offset) := by
  induction xs generalizing offset with
  | nil => simp
  | cons x xs ih =>
    rw [List.map_cons, List.length_cons, List.range'_succ, List.map_cons, List.cons.injEq]
      at hNumbers
    obtain ⟨hx, hxs⟩ := hNumbers
    by_cases hk : k ≤ number x
    · have hZero : k.toNat - offset = 0 := by omega
      have hZero' : k.toNat - (offset + 1) = 0 := by omega
      rw [List.filter_cons_of_pos (by simpa using hk), ih hxs, hZero, hZero', List.drop_zero,
        List.drop_zero]
    · have hSucc : k.toNat - offset = k.toNat - (offset + 1) + 1 := by omega
      rw [List.filter_cons_of_neg (by simpa using hk), ih hxs, hSucc, List.drop_succ_cons]

/-- What the readers of a handle find where its chain is the given one. The walk ends with any fuel
that is enough for the chain. -/
structure Reads (h : Handle) (chain : List Block) : Prop where
  walk : h.db.ChainTo (h.tip.getD []) chain
  latest : h.db.getLatestBlock = chain.getLast?
  indexes : chain.map (fun b => b.index.toInt) = (List.range chain.length).map fun i : Nat => (i : Int)
  byIndex : ∀ i b, chain[i]? = some b → ∀ fuel, chain.length ≤ fuel →
    h.getBlockByIndex fuel (Int64.ofNat i) = some (.ok (some b))
  blocksFrom : ∀ startHeight fuel, chain.length ≤ fuel →
    h.getBlocksFrom fuel startHeight = some (.ok (chain.drop startHeight.toInt.toNat))
  transaction : ∀ tid fuel, chain.length ≤ fuel →
    h.findTransaction fuel tid = some (.ok (firstTransaction tid chain.reverse))
  hashes : ∀ fuel, chain.length ≤ fuel →
    h.getBlockHashes fuel = some (.ok (chain.reverse.map fun b => b.hash))

section Reads

variable {h : Handle} {first last : Block} {line : List Block}

theorem Line.toInt_indexes (hLine : Line h.db first line last) (hFirst : first.index = 0)
    (hShort : line.length ≤ 2 ^ 63) :
    line.map (fun b => b.index.toInt) = (List.range line.length).map fun i : Nat => (i : Int) := by
  have hMap := congrArg (List.map Int64.toInt) (hLine.indexes hFirst)
  rw [List.map_map, List.map_map] at hMap
  refine hMap.trans (List.map_congr_left fun i hi => ?_)
  exact Int64.toInt_ofNat_of_lt (Nat.lt_of_lt_of_le (List.mem_range.mp hi) hShort)

/-- The block at a place of the line is the only one with its index. -/
theorem find_index {chain : List Block}
    (hIndexes : chain.map (fun b => b.index.toInt) =
      (List.range chain.length).map fun i : Nat => (i : Int)) {i : Nat} {b : Block}
    (hb : chain[i]? = some b) :
    (chain.reverse.find? fun block => block.index = Int64.ofNat i) = some b := by
  have hIndex : ∀ (j : Nat) (c : Block), chain[j]? = some c → c.index.toInt = j := by
    intro j c hc
    obtain ⟨hj, rfl⟩ := List.getElem?_eq_some_iff.mp hc
    have hGet := congrArg (fun xs => xs[j]?) hIndexes
    simpa [hj] using hGet
  have hi : b.index = Int64.ofNat i := by
    apply Int64.toInt_inj.mp
    have hLt := Int64.toInt_lt b.index
    rw [hIndex i b hb] at hLt ⊢
    rw [Int64.toInt_ofNat_of_lt (by omega)]
  have hMem : b ∈ chain := List.mem_of_getElem? hb
  obtain ⟨c, hc⟩ : ∃ c, (chain.reverse.find? fun block => block.index = Int64.ofNat i) = some c := by
    apply Option.isSome_iff_exists.mp
    rw [List.find?_isSome]
    exact ⟨b, List.mem_reverse.mpr hMem, by simpa using hi⟩
  have hFound := List.find?_some hc
  obtain ⟨j, hj⟩ := List.getElem?_of_mem (List.mem_reverse.mp (List.mem_of_find?_eq_some hc))
  have hSame : (j : Int) = i := by
    rw [← hIndex j c hj, ← hIndex i b hb, of_decide_eq_true hFound, hi]
  rw [hc, ← hj, ← hb, Int.ofNat.inj hSame]

theorem Line.reads (hLine : Line h.db first line last) (hFirst : first.index = 0)
    (hShort : line.length ≤ 2 ^ 63) (hTip : h.tip = some last.hash)
    (hDbTip : h.db.tip = some last.hash) : h.Reads line := by
  have hWalk : h.db.ChainTo (h.tip.getD []) line := by
    rw [hTip]
    exact hLine.chainTo hFirst hShort
  have hIndexes := hLine.toInt_indexes hFirst hShort
  refine ⟨hWalk, ?_, hIndexes, ?_, ?_, ?_, ?_⟩
  · rw [Blockchain.getLatestBlock, hDbTip, hLine.getLast]
    exact hLine.stored_last
  · intro i b hb fuel hFuel
    rw [getBlockByIndex, walk_of_chainTo hWalk _ _ hFuel, visitAll_find, find_index hIndexes hb]
  · intro startHeight fuel hFuel
    have hNumbers : line.map (fun b => b.index.toInt) =
        (List.range' 0 line.length).map fun i : Nat => (i : Int) := by
      rw [hIndexes, List.range_eq_range']
    have hDrop := filter_eq_drop hNumbers startHeight.toInt
    rw [getBlocksFrom, walk_of_chainTo hWalk _ _ hFuel, visitAll_filter, List.filter_reverse,
      List.reverse_reverse, List.append_nil, ← Nat.sub_zero startHeight.toInt.toNat, ← hDrop]
    simp only [Int64.le_iff_toInt_le]
  · intro tid fuel hFuel
    rw [findTransaction, walk_of_chainTo hWalk _ _ hFuel, visitAll_transaction]
  · intro fuel hFuel
    rw [getBlockHashes, walk_of_chainTo hWalk _ _ hFuel, visitAll_hashes, List.nil_append]

end Reads

/-! ## The stored chain -/

/-- The index of the latest block. -/
def tipIndex (h : Handle) : Option Int := h.db.getLatestBlock.map fun b => b.index.toInt

/-- While the blocks are added, the readers find a chain from the first block with all indexes up
to the tip, and the index of the tip never decreases. -/
def KeepsChain (first : Block) (rest : List Block) : Prop :=
  (∀ before after, rest = before ++ after →
      ∃ chain, chain.head? = some first ∧ (stored first before).Reads chain) ∧
    ∀ before block after, rest = before ++ block :: after →
      ∃ i j, tipIndex (stored first before) = some i ∧
        tipIndex (stored first (before ++ [block])) = some j ∧ i ≤ j

section Stored

variable {first : Block}

theorem moves_append (first : Block) (before after : List Block) :
    moves first before ≤ moves first (before ++ after) := by
  induction after using List.reverseRecOn with
  | nil => rw [List.append_nil]
  | append_singleton after block ih =>
    rw [← List.append_assoc, moves_concat]
    exact Nat.le_add_right_of_le ih

/-- The index of the latest block tells how often the tip has moved. -/
theorem tipIndex_stored (hFirst : first.index = 0) (rest : List Block) :
    tipIndex (stored first rest) = some (Int64.ofNat (moves first rest - 1)).toInt := by
  obtain ⟨line, last, hLine, hLength, -, hTip⟩ := exists_line first rest
  have hLatest : (stored first rest).db.getLatestBlock = some last := by
    rw [Blockchain.getLatestBlock, hTip]
    exact hLine.stored_last
  rw [tipIndex, hLatest, ← hLength, ← hLine.index_last hFirst]
  rfl

/-- Where the tip moves more than 2^63 times, one of the moves is from the greatest index. -/
theorem exists_last_move {rest : List Block} (hLong : 2 ^ 63 < moves first rest) :
    ∃ before block after, rest = before ++ block :: after ∧ moves first before = 2 ^ 63 ∧
      moves first (before ++ [block]) = 2 ^ 63 + 1 := by
  induction rest using List.reverseRecOn with
  | nil =>
    have hOne : moves first [] ≤ 1 := by
      show (if Blockchain.movesTip {} first then 1 else 0) + 0 ≤ 1
      split <;> decide
    omega
  | append_singleton rest block ih =>
    by_cases hBefore : 2 ^ 63 < moves first rest
    · obtain ⟨before, b, after, rfl, hMoves⟩ := ih hBefore
      exact ⟨before, b, after ++ [block], by simp, hMoves⟩
    · have hStep := moves_concat first rest block
      have hNext : moves first (rest ++ [block]) ≤ moves first rest + 1 := by
        rw [hStep]
        split <;> omega
      exact ⟨rest, block, [], rfl, by omega, by omega⟩

/-- There the index falls to the least one. -/
theorem not_keepsChain_of_long (hFirst : first.index = 0) {rest : List Block}
    (hLong : 2 ^ 63 < moves first rest) : ¬ KeepsChain first rest := by
  rintro ⟨-, hGrows⟩
  obtain ⟨before, block, after, hSplit, hBefore, hAfter⟩ := exists_last_move hLong
  obtain ⟨i, j, hi, hj, hLe⟩ := hGrows before block after hSplit
  rw [tipIndex_stored hFirst, hBefore, Option.some.injEq] at hi
  rw [tipIndex_stored hFirst, hAfter, Option.some.injEq] at hj
  rw [← hi, ← hj] at hLe
  exact absurd hLe (by decide)

end Stored

/-- The block at a place of a chain without transactions. -/
def numberedBlock (i : Nat) : Block :=
  emptyBlock (Int64.ofNat i) (beBytes 32 (i - 1)) (beBytes 32 i)

def numberedBlocks (n : Nat) : List Block :=
  (List.range n).map fun i => numberedBlock (i + 1)

theorem numberedBlocks_succ (n : Nat) :
    numberedBlocks (n + 1) = numberedBlocks n ++ [numberedBlock (n + 1)] := by
  rw [numberedBlocks, List.range_succ, List.map_append]
  rfl

/-- Each of the blocks moves the tip. -/
theorem moves_numberedBlocks {n : Nat} (hn : n < 256 ^ 32) :
    moves (numberedBlock 0) (numberedBlocks n) = n + 1 ∧
      (stored (numberedBlock 0) (numberedBlocks n)).db.tip = some (beBytes 32 n) ∧
      (stored (numberedBlock 0) (numberedBlocks n)).db.blocks (beBytes 32 n) =
        some (numberedBlock n) ∧
      ∀ j, n < j → j < 256 ^ 32 →
        (stored (numberedBlock 0) (numberedBlocks n)).db.blocks (beBytes 32 j) = none := by
  induction n with
  | zero =>
    have hMoves := movesTip_first (numberedBlock 0)
    refine ⟨?_, ?_, ?_, ?_⟩
    · show (if Blockchain.movesTip {} (numberedBlock 0) then 1 else 0) + 0 = 1
      rw [if_pos hMoves]
    · show (Blockchain.addBlock {} (numberedBlock 0)).tip = some (beBytes 32 0)
      rw [Blockchain.tip_addBlock, if_pos hMoves]
      rfl
    · show (Blockchain.addBlock {} (numberedBlock 0)).blocks (numberedBlock 0).hash = _
      exact Blockchain.blocks_addBlock_self rfl
    · intro j hj hLt
      show (Blockchain.addBlock {} (numberedBlock 0)).blocks (beBytes 32 j) = none
      by_contra hSome
      obtain ⟨b, hb⟩ := Option.ne_none_iff_exists'.mp hSome
      rcases Blockchain.blocks_addBlock_eq_some hb with hOld | ⟨hHash, -⟩
      · cases hOld
      · exact absurd (beBytes_inj hLt hn hHash) (by omega)
  | succ n ih =>
    obtain ⟨hCount, hTip, hLast, hFree⟩ := ih (by omega)
    have hNew := hFree (n + 1) (by omega) hn
    have hMoved : ((stored (numberedBlock 0) (numberedBlocks n)).db.addBlock
        (numberedBlock (n + 1))).tip = some (beBytes 32 (n + 1)) :=
      Blockchain.tip_addBlock_of_extends hNew hTip hLast rfl (Int64.ofNat_add n 1)
    have hMoves : (stored (numberedBlock 0) (numberedBlocks n)).db.movesTip
        (numberedBlock (n + 1)) := by
      by_contra hNot
      rw [Blockchain.tip_addBlock, if_neg hNot, hTip, Option.some.injEq] at hMoved
      exact absurd (beBytes_inj (by omega) hn hMoved) (by omega)
    rw [numberedBlocks_succ, moves_concat, stored_concat, if_pos hMoves, hCount]
    refine ⟨rfl, hMoved, Blockchain.blocks_addBlock_self hNew, fun j hj hLt => ?_⟩
    by_contra hSome
    obtain ⟨b, hb⟩ := Option.ne_none_iff_exists'.mp hSome
    rcases Blockchain.blocks_addBlock_eq_some hb with hOld | ⟨hHash, -⟩
    · rw [hFree j (by omega) hLt] at hOld
      cases hOld
    · exact absurd (beBytes_inj hLt hn hHash) (by omega)

end Handle

end Bdns.Blockchain
