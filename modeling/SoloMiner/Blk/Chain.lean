import SoloMiner.Blk.Scan
import SoloMiner.Lib.Walk

/-!
# The chain that block records make

The records of a block file stand in the order in which the blocks arrived. Which chain
they make is found by their links: a block names its parent, so `summarise` maps every
parent to a child and walks from the genesis block as far as it gets.

A parent may have several children, and the map keeps the first. A chain of hashes has no
cycle, so the walk ends, and counts no block twice (`SoloMiner.summarise_bounded`). How far
it gets may depend on which child came first, and it does exactly if a block that can be
reached has two (`SoloMiner.summarise_coverage`).
-/

namespace SoloMiner

open Relation

/-- What a set of block records adds up to as a chain. -/
structure ChainSummary where
  /-- How many distinct blocks were found. -/
  blocks : ℕ
  /-- Whether the genesis block is present. -/
  hasGenesis : Bool
  /-- How many blocks are reachable by walking forward from genesis. -/
  connected : ℕ
  /-- The height reached, if genesis was present. -/
  tipHeight : Option ℕ
  /-- The hash at that height. -/
  tipHash : Option Sha256dHash
  /-- Blocks whose parent is not in this set and which are not genesis. -/
  orphanRoots : ℕ
  deriving DecidableEq

/-- Bitcoin mainnet's genesis block hash, in display form. -/
def GENESIS : Str := "000000000019d6689c085ae165831e934ff763ae46a2a6c172b3f1b60a8ce26f".toList

/-- The hash that is meant. The `expect` of the source is on the constant. -/
@[irreducible] def genesis : Sha256dHash := (Sha256dHash.fromStr GENESIS).toOption.getD .ZERO

theorem fromStr_GENESIS : Sha256dHash.fromStr GENESIS = .ok genesis := by decide +kernel

/-! ### The summary -/

/-- The hashes of the records. -/
def present (records : List BlockRecord) : Finset Sha256dHash :=
  (records.map BlockRecord.hash).toFinset

/-- `entry(parent).or_insert(child)`: a parent that is there keeps its child. -/
def orInsert (children : List (Sha256dHash × Sha256dHash)) (parent child : Sha256dHash) :
    List (Sha256dHash × Sha256dHash) :=
  if (children.lookup parent).isSome then children else children ++ [(parent, child)]

/-- The map from a parent to the first of its children. -/
def children (records : List BlockRecord) : List (Sha256dHash × Sha256dHash) :=
  records.foldl (fun children record => orInsert children record.previous record.hash) []

/-- `children.get`. -/
def nextChild (records : List BlockRecord) (parent : Sha256dHash) : Option Sha256dHash :=
  (children records).lookup parent

/-- How many records have no parent and are not genesis. -/
def orphanRoots (records : List BlockRecord) : ℕ :=
  records.countP fun record => record.hash ≠ genesis ∧ record.previous ∉ present records

/-- Works out what chain a collection of records represents. The first argument bounds the
turns of the walk, and there is no result if they run out. -/
def summarise (fuel : ℕ) (records : List BlockRecord) : Option ChainSummary :=
  if genesis ∈ present records then
    (Walk.follow (nextChild records) fuel genesis 0).map fun (current, height) =>
      ⟨(present records).card, true, height + 1, some height, some current, orphanRoots records⟩
  else some ⟨(present records).card, false, 0, none, none, orphanRoots records⟩

/-! ### The links -/

/-- One of the records links a child to its parent. -/
def IsChild (records : List BlockRecord) (parent child : Sha256dHash) : Prop :=
  ∃ record ∈ records, record.previous = parent ∧ record.hash = child

variable {records records' : List BlockRecord} {parent child : Sha256dHash}

/-- A child is the hash of a record. -/
theorem mem_present_of_isChild (h : IsChild records parent child) : child ∈ present records := by
  obtain ⟨record, hmem, -, rfl⟩ := h
  exact List.mem_toFinset.mpr (List.mem_map_of_mem hmem)

/-- Only the first record of a parent gets into the map. -/
theorem lookup_orInsert (map : List (Sha256dHash × Sha256dHash)) (key parent child : Sha256dHash) :
    (orInsert map parent child).lookup key =
      (map.lookup key).or (if parent = key then some child else none) := by
  rw [orInsert]
  by_cases heq : parent = key
  · subst heq
    rw [if_pos rfl]
    cases hlookup : map.lookup parent with
    | some old => simp [hlookup]
    | none =>
      rw [if_neg (by simp), List.lookup_append, hlookup]
      simp
  · have hne : ¬ key = parent := Ne.symm heq
    rw [if_neg heq, Option.or_none]
    split_ifs with hsome
    · rfl
    · rw [List.lookup_append]
      simp [hne]

/-- **The map holds the first record of each parent.** -/
theorem nextChild_eq_find (records : List BlockRecord) (parent : Sha256dHash) :
    nextChild records parent =
      (records.find? fun record => record.previous = parent).map BlockRecord.hash := by
  have hfold : ∀ map : List (Sha256dHash × Sha256dHash),
      (records.foldl (fun map record => orInsert map record.previous record.hash) map).lookup
        parent = (map.lookup parent).or
          ((records.find? fun record => record.previous = parent).map BlockRecord.hash) := by
    induction records with
    | nil => exact fun map => (Option.or_none).symm
    | cons record records ih =>
      intro map
      rw [List.foldl_cons, ih, lookup_orInsert, Option.or_assoc]
      by_cases heq : record.previous = parent
      · simp [heq]
      · simp [heq]
  exact hfold []

/-- **The map chooses a child of every parent.** -/
theorem isChoice_nextChild (records : List BlockRecord) :
    Walk.IsChoice (IsChild records) (nextChild records) where
  edge parent child h := by
    rw [nextChild_eq_find, Option.map_eq_some_iff] at h
    obtain ⟨record, hfind, hhash⟩ := h
    exact ⟨record, List.mem_of_find?_eq_some hfind, by simpa using List.find?_some hfind, hhash⟩
  none parent child h := by
    rintro ⟨record, hmem, hprevious, -⟩
    rw [nextChild_eq_find, Option.map_eq_none_iff, List.find?_eq_none] at h
    exact h record hmem (by simpa using hprevious)

/-! ### The order of the records -/

theorem isChild_of_perm (h : records'.Perm records) : IsChild records' = IsChild records := by
  funext parent child
  exact propext ⟨fun ⟨record, hmem, hlink⟩ => ⟨record, h.mem_iff.mp hmem, hlink⟩,
    fun ⟨record, hmem, hlink⟩ => ⟨record, h.mem_iff.mpr hmem, hlink⟩⟩

theorem present_of_perm (h : records'.Perm records) : present records' = present records :=
  List.toFinset_eq_of_perm _ _ (h.map _)

theorem orphanRoots_of_perm (h : records'.Perm records) :
    orphanRoots records' = orphanRoots records := by
  rw [orphanRoots, orphanRoots, present_of_perm h]
  exact h.countP_eq _

/-- **In some order any child is the first** of its parent. -/
theorem exists_perm_nextChild (h : IsChild records parent child) :
    ∃ records', records'.Perm records ∧ nextChild records' parent = some child := by
  obtain ⟨record, hmem, hprevious, rfl⟩ := h
  refine ⟨record :: records.erase record, (List.perm_cons_erase hmem).symm, ?_⟩
  rw [nextChild_eq_find, List.find?_cons_of_pos (by simpa using hprevious)]
  rfl

/-! ### The walk -/

/-- The summary of a walk that meets these blocks behind genesis. -/
def summaryOf (records : List BlockRecord) (nodes : List Sha256dHash) (last : Sha256dHash) :
    ChainSummary :=
  ⟨(present records).card, true, nodes.length + 1, some nodes.length, some last,
    orphanRoots records⟩

/-- A summary is worked out in as many turns as there are records. -/
def Summarises (records : List BlockRecord) (summary : ChainSummary) : Prop :=
  ∀ fuel, records.length ≤ fuel → summarise fuel records = some summary

theorem Summarises.unique {summary summary' : ChainSummary} (h : Summarises records summary)
    (h' : Summarises records summary') : summary = summary' :=
  Option.some.inj ((h _ le_rfl).symm.trans (h' _ le_rfl))

section Acyclic

variable (hacyclic : Walk.Acyclic (IsChild records)) {nodes : List Sha256dHash}
  {last : Sha256dHash}
include hacyclic

/-- The walk stays among the records, so it is no longer than there are blocks. -/
theorem length_lt_card (hgenesis : genesis ∈ present records)
    (h : Walk.Visits (nextChild records) genesis nodes last) :
    (∀ hash ∈ genesis :: nodes, hash ∈ present records) ∧
      nodes.length < (present records).card := by
  have hchoice := isChoice_nextChild records
  have hmem : ∀ hash ∈ genesis :: nodes, hash ∈ present records := by
    intro hash hhash
    rcases Walk.reaches_subset (fun _ _ hchild => mem_present_of_isChild hchild)
      (h.reaches hchoice hhash) with rfl | hpresent
    · exact hgenesis
    · exact hpresent
  refine ⟨hmem, ?_⟩
  have hcard : (genesis :: nodes).toFinset.card = nodes.length + 1 :=
    List.toFinset_card_of_nodup (h.nodup hchoice hacyclic)
  have hle := Finset.card_le_card fun hash hhash => hmem hash (List.mem_toFinset.mp hhash)
  omega

/-- **The walk ends**, and the summary is what it has counted. -/
theorem exists_summarises (hgenesis : genesis ∈ present records) :
    ∃ nodes last, Walk.Visits (nextChild records) genesis nodes last ∧
      Summarises records (summaryOf records nodes last) := by
  obtain ⟨nodes, last, hvisits⟩ := Walk.exists_visits (isChoice_nextChild records) hacyclic
    (fun _ _ => mem_present_of_isChild) genesis
  refine ⟨nodes, last, hvisits, fun fuel hfuel => ?_⟩
  have hlt := (length_lt_card hacyclic hgenesis hvisits).2
  have hcard : (present records).card ≤ records.length :=
    (List.toFinset_card_le _).trans_eq (List.length_map _)
  rw [summarise, if_pos hgenesis, hvisits.follow (by omega) 0, Nat.zero_add]
  rfl

end Acyclic

/-- The blocks that the walk meets, and what is counted of them. -/
structure Bounded (records : List BlockRecord) (summary : ChainSummary)
    (visited : List Sha256dHash) : Prop where
  /-- With genesis they are those of a walk that has come to its end; -/
  walk : summary.hasGenesis = true → ∃ nodes last, visited = genesis :: nodes ∧
    Walk.Visits (nextChild records) genesis nodes last ∧ summary.tipHash = some last
  /-- without it there is no walk. -/
  noWalk : summary.hasGenesis = false → visited = []
  /-- No block is met twice, -/
  nodup : visited.Nodup
  /-- and every one is there. -/
  present : ∀ hash ∈ visited, hash ∈ present records
  /-- They are the blocks that are counted as connected, -/
  connected : summary.connected = visited.length
  /-- and these are no more than there are. -/
  le : summary.connected ≤ summary.blocks

/-- **The walk ends, and its count is bounded**, for all records whose links have no
cycle: in any order, with forks, duplicates and missing parents. -/
theorem summarise_bounded (hacyclic : Walk.Acyclic (IsChild records)) :
    ∃ summary visited, Summarises records summary ∧ Bounded records summary visited := by
  by_cases hgenesis : genesis ∈ present records
  · obtain ⟨nodes, last, hvisits, hsum⟩ := exists_summarises hacyclic hgenesis
    obtain ⟨hmem, hlt⟩ := length_lt_card hacyclic hgenesis hvisits
    exact ⟨summaryOf records nodes last, genesis :: nodes, hsum,
      ⟨fun _ => ⟨nodes, last, rfl, hvisits, rfl⟩, fun h => absurd h (by simp [summaryOf]),
        hvisits.nodup (isChoice_nextChild records) hacyclic, hmem, rfl, hlt⟩⟩
  · exact ⟨_, [], fun fuel _ => if_neg hgenesis, ⟨fun h => absurd h (by simp), fun _ => rfl,
      List.nodup_nil, by simp, rfl, Nat.zero_le _⟩⟩

/-- There is no cycle where every record has a higher rank than its parent. -/
theorem acyclic_of_forall_lt (rank : Sha256dHash → ℕ)
    (h : ∀ record ∈ records, rank record.previous < rank record.hash) :
    Walk.Acyclic (IsChild records) := by
  refine Walk.acyclic_of_rank rank ?_
  rintro _ _ ⟨record, hmem, rfl, rfl⟩
  exact h record hmem

/-- Records of genesis, of a block on it and again of genesis. -/
def sampleRecords : List BlockRecord :=
  [⟨0, 80, genesis, .ZERO⟩, ⟨88, 80, ⟨.replicate 32 1⟩, genesis⟩, ⟨176, 80, genesis, .ZERO⟩]

theorem sampleRecords_acyclic : Walk.Acyclic (IsChild sampleRecords) :=
  acyclic_of_forall_lt (fun hash => if hash = .ZERO then 0 else if hash = genesis then 1 else 2)
    (by decide +kernel)

theorem summarise_bounded_sample :
    ∃ summary visited, Summarises sampleRecords summary ∧ Bounded sampleRecords summary visited :=
  summarise_bounded sampleRecords_acyclic

/-! ### Coverage -/

/-- The summary says what can be reached from genesis, and says it in any order. -/
structure Coverage (records : List BlockRecord) (summary : ChainSummary) : Prop where
  /-- As many blocks are connected as can be reached by child links. -/
  connected : summary.connected = {hash | ReflTransGen (IsChild records) genesis hash}.ncard
  /-- The height of the tip is the greatest that is reached, -/
  tipHeight : ∃ height, summary.tipHeight = some height ∧
    IsGreatest {n | ∃ hash, Walk.ReachesIn (IsChild records) n genesis hash} height
  /-- and the tip is reached at it. -/
  tipHash : ∃ height tip, summary.tipHeight = some height ∧ summary.tipHash = some tip ∧
    Walk.ReachesIn (IsChild records) height genesis tip
  /-- In another order the same is found. -/
  order : ∀ records', records'.Perm records → ∃ summary', Summarises records' summary' ∧
    summary'.blocks = summary.blocks ∧ summary'.connected = summary.connected ∧
      summary'.tipHeight = summary.tipHeight ∧ summary'.orphanRoots = summary.orphanRoots

section Acyclic

variable {nodes : List Sha256dHash} {last : Sha256dHash}

/-- Without forks the walk is the longest there is. -/
theorem isGreatest_length (hunforked : Walk.Unforked (IsChild records) genesis)
    {next : Sha256dHash → Option Sha256dHash} (hchoice : Walk.IsChoice (IsChild records) next)
    (h : Walk.Visits next genesis nodes last) :
    IsGreatest {n | ∃ hash, Walk.ReachesIn (IsChild records) n genesis hash} nodes.length := by
  refine ⟨⟨last, h.reachesIn hchoice⟩, ?_⟩
  rintro n ⟨hash, hreach⟩
  exact h.le_length hchoice hunforked hreach

variable (hacyclic : Walk.Acyclic (IsChild records))
include hacyclic

/-- The walk counts the blocks that can be reached precisely if it meets them all. -/
theorem length_eq_ncard_iff {next : Sha256dHash → Option Sha256dHash}
    (hchoice : Walk.IsChoice (IsChild records) next) (h : Walk.Visits next genesis nodes last) :
    nodes.length + 1 = {hash | ReflTransGen (IsChild records) genesis hash}.ncard ↔
      ∀ hash, ReflTransGen (IsChild records) genesis hash → hash ∈ genesis :: nodes :=
  h.length_eq_ncard_iff hchoice hacyclic (present records).finite_toSet
    fun _ _ => mem_present_of_isChild

variable (hgenesis : genesis ∈ present records)
include hgenesis

/-- The summary of the records in another order. -/
theorem exists_summarises_of_perm (hperm : records'.Perm records) :
    ∃ nodes last, Walk.Visits (nextChild records') genesis nodes last ∧
      Walk.IsChoice (IsChild records) (nextChild records') ∧
        Summarises records' (summaryOf records' nodes last) := by
  have hchild := isChild_of_perm hperm
  obtain ⟨nodes, last, hvisits, hsum⟩ := exists_summarises (hchild.symm ▸ hacyclic)
    ((present_of_perm hperm).symm ▸ hgenesis)
  exact ⟨nodes, last, hvisits, hchild ▸ isChoice_nextChild records', hsum⟩

/-- **Without forks the order does not matter.** -/
theorem coverage_of_unforked (hunforked : Walk.Unforked (IsChild records) genesis)
    (h : Walk.Visits (nextChild records) genesis nodes last) :
    Coverage records (summaryOf records nodes last) := by
  have hchoice := isChoice_nextChild records
  have hcount : ∀ {next nodes last}, Walk.IsChoice (IsChild records) next →
      Walk.Visits next genesis nodes last →
        nodes.length + 1 = {hash | ReflTransGen (IsChild records) genesis hash}.ncard :=
    fun hchoice h => (length_eq_ncard_iff hacyclic hchoice h).mpr fun hash hreach =>
      h.mem_of_reaches hchoice hunforked hreach
  refine ⟨hcount hchoice h, ⟨_, rfl, isGreatest_length hunforked hchoice h⟩,
    ⟨_, _, rfl, rfl, h.reachesIn hchoice⟩, fun records' hperm => ?_⟩
  obtain ⟨nodes', last', hvisits', hchoice', hsum'⟩ :=
    exists_summarises_of_perm hacyclic hgenesis hperm
  have hlen : nodes'.length = nodes.length := by
    have hcount' := hcount hchoice' hvisits'
    have hcount := hcount hchoice h
    omega
  exact ⟨_, hsum', congrArg Finset.card (present_of_perm hperm), congrArg (· + 1) hlen,
    congrArg some hlen, orphanRoots_of_perm hperm⟩

/-- **A fork shows**: of two orders that put different children first, one leaves blocks
out. -/
theorem unforked_of_coverage (h : Coverage records (summaryOf records nodes last)) :
    Walk.Unforked (IsChild records) genesis := by
  intro parent hreach child child' hchild hchild'
  -- In any order the walk meets whatever can be reached, as it counts as many blocks.
  have hall : ∀ records', records'.Perm records → ∃ nodes last,
      Walk.Visits (nextChild records') genesis nodes last ∧
        Walk.IsChoice (IsChild records) (nextChild records') ∧
          ∀ hash, ReflTransGen (IsChild records) genesis hash → hash ∈ genesis :: nodes := by
    intro records' hperm
    obtain ⟨nodes', last', hvisits, hchoice, hsum⟩ :=
      exists_summarises_of_perm hacyclic hgenesis hperm
    obtain ⟨summary', hsum', -, hconnected, -⟩ := h.order records' hperm
    obtain rfl := hsum.unique hsum'
    exact ⟨nodes', last', hvisits, hchoice,
      (length_eq_ncard_iff hacyclic hchoice hvisits).mp (hconnected.trans h.connected)⟩
  obtain ⟨records₁, hperm₁, hfirst₁⟩ := exists_perm_nextChild hchild
  obtain ⟨records₂, hperm₂, hfirst₂⟩ := exists_perm_nextChild hchild'
  obtain ⟨nodes₁, last₁, hvisits₁, hchoice₁, hall₁⟩ := hall records₁ hperm₁
  obtain ⟨nodes₂, last₂, hvisits₂, hchoice₂, hall₂⟩ := hall records₂ hperm₂
  exact hvisits₁.next_eq hchoice₁ hacyclic hchoice₂ hvisits₂ hall₁ hall₂ hreach hfirst₁ hfirst₂

end Acyclic

/-- What a summary says whatever the forks. -/
structure FirstChildren (records : List BlockRecord) (summary : ChainSummary) : Prop where
  /-- The tip is reached by as many links as its height says, and nothing comes after it; -/
  tip : ∃ height last, summary.tipHeight = some height ∧ summary.tipHash = some last ∧
    summary.connected = height + 1 ∧ Walk.ReachesIn (IsChild records) height genesis last ∧
      ∀ child, ¬ IsChild records last child
  /-- in another order there are as many blocks, and as many without a parent. -/
  order : ∀ records', records'.Perm records → ∃ summary', Summarises records' summary' ∧
    summary'.blocks = summary.blocks ∧ summary'.orphanRoots = summary.orphanRoots

/-- **The coverage is right precisely if no block that can be reached has two children**,
for all records whose links have no cycle and that contain genesis. -/
theorem summarise_coverage (hacyclic : Walk.Acyclic (IsChild records))
    (hgenesis : genesis ∈ present records) :
    ∃ summary, Summarises records summary ∧ FirstChildren records summary ∧
      (Coverage records summary ↔ Walk.Unforked (IsChild records) genesis) := by
  obtain ⟨nodes, last, hvisits, hsum⟩ := exists_summarises hacyclic hgenesis
  have hchoice := isChoice_nextChild records
  refine ⟨summaryOf records nodes last, hsum, ⟨⟨_, _, rfl, rfl, rfl, hvisits.reachesIn hchoice,
    fun child => hchoice.none last child hvisits.next_last⟩, fun records' hperm => ?_⟩,
    unforked_of_coverage hacyclic hgenesis,
    fun hunforked => coverage_of_unforked hacyclic hgenesis hunforked hvisits⟩
  obtain ⟨nodes', last', -, -, hsum'⟩ := exists_summarises_of_perm hacyclic hgenesis hperm
  exact ⟨_, hsum', congrArg Finset.card (present_of_perm hperm), orphanRoots_of_perm hperm⟩

theorem summarise_coverage_sample :
    ∃ summary, Summarises sampleRecords summary ∧ FirstChildren sampleRecords summary ∧
      (Coverage sampleRecords summary ↔ Walk.Unforked (IsChild sampleRecords) genesis) :=
  summarise_coverage sampleRecords_acyclic (by decide +kernel)

/-- Genesis, a block on it that was left behind, and the two blocks of the chain. -/
def forkedRecords : List BlockRecord :=
  [⟨0, 80, genesis, .ZERO⟩, ⟨88, 80, ⟨.replicate 32 1⟩, genesis⟩,
    ⟨176, 80, ⟨.replicate 32 2⟩, genesis⟩, ⟨264, 80, ⟨.replicate 32 3⟩, ⟨.replicate 32 2⟩⟩]

theorem forkedRecords_acyclic : Walk.Acyclic (IsChild forkedRecords) :=
  acyclic_of_forall_lt (fun hash => if hash = .ZERO then 0 else if hash = genesis then 1 else
    if hash = ⟨.replicate 32 3⟩ then 3 else 2) (by decide +kernel)

/-- The block that was left behind comes first and ends the walk: two blocks are counted,
where four can be reached, and three are counted when the other one comes first. -/
theorem not_coverage_forkedRecords :
    Walk.Acyclic (IsChild forkedRecords) ∧ genesis ∈ present forkedRecords ∧
      ∀ summary, Summarises forkedRecords summary →
        summary.connected = 2 ∧ ¬ Coverage forkedRecords summary := by
  refine ⟨forkedRecords_acyclic, by decide +kernel, fun summary h => ?_⟩
  have hsum : (summarise 4 forkedRecords).map ChainSummary.connected = some 2 := by decide +kernel
  have hconnected : summary.connected = 2 := by
    rw [h 4 le_rfl] at hsum
    exact Option.some.inj hsum
  refine ⟨hconnected, fun hcoverage => ?_⟩
  obtain ⟨summary', h', -, heq, -⟩ := hcoverage.order forkedRecords.reverse (List.reverse_perm _)
  have hsum' : (summarise 4 forkedRecords.reverse).map ChainSummary.connected = some 3 := by
    decide +kernel
  rw [h' 4 le_rfl] at hsum'
  have hconnected' : summary'.connected = 3 := Option.some.inj hsum'
  omega

end SoloMiner
