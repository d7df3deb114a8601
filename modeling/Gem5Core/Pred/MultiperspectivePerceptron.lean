import Gem5Core.Pred.Branch

/-! The histories of `MultiperspectivePerceptron` (`cpu/pred/multiperspective_perceptron.cc`) for
one thread. The weights are hashed by the histories but never written to them, and are not part of
this state. -/
namespace Gem5Core.Pred.MultiperspectivePerceptron
open Branch

/-- The parameters, with the lengths that `init` collects from the features. -/
structure Params where
  num_filter_entries : Nat
  num_local_histories : Nat
  local_history_length : Nat
  blockSize : Nat
  pcshift : Int
  pcbit : Nat
  decay : Nat
  record_mask : BitVec 32
  hash_taken : Bool
  doing_recency : Bool
  assoc : Nat
  ghist_length : Nat
  path_length : Nat
  modhist_indices : List Nat
  modhist_lengths : List Nat
  modpath_indices : List Nat
  modpath_lengths : List Nat
  blurrypath_sizes : List Nat
  acyclic_sizes : List Nat

def Params.defaults8KB : Params where
  num_filter_entries := 0
  num_local_histories := 48
  local_history_length := 11
  blockSize := 21
  pcshift := -10
  pcbit := 2
  decay := 0
  record_mask := 191
  hash_taken := false
  doing_recency := true
  assoc := 31
  ghist_length := 151
  path_length := 32
  modhist_indices := [0]
  modhist_lengths := [8]
  modpath_indices := [0]
  modpath_lengths := [8]
  blurrypath_sizes := []
  acyclic_sizes := []

structure MPPBranchInfo where
  pc : BitVec 32
  pc2 : BitVec 16
  hpc : BitVec 16
  condBranch : Bool
  filtered : Bool := false
deriving DecidableEq

def hash1 (a : BitVec 32) : BitVec 32 :=
  let a := (a ^^^ 0xdeadbeef) + (a <<< 4)
  let a := a ^^^ (a >>> 10)
  let a := a + (a <<< 7)
  a ^^^ (a >>> 13)

def hash2 (key : BitVec 32) : BitVec 32 :=
  let key := (key ^^^ 61) ^^^ (key >>> 16)
  let key := key + (key <<< 3)
  let key := key ^^^ (key >>> 4)
  let key := key * 0x27d4eb2d
  key ^^^ (key >>> 15)

def hash (key i : BitVec 32) : BitVec 32 := hash2 key * i + hash1 key

def hashPC (pc : BitVec 32) (pcshift : Int) : BitVec 32 :=
  if pcshift < 0 then hash pc (BitVec.ofInt 32 (-pcshift))
  else if pcshift < 11 then pc ^^^ (pc >>> pcshift.toNat)
  else pc >>> (pcshift - 11).toNat

def newBranchInfo (p : Params) (pc : Addr) (cb : Bool) : MPPBranchInfo :=
  let pc := pc.setWidth 32
  { pc
    pc2 := (pc >>> 2).setWidth 16
    hpc := (hashPC pc p.pcshift).setWidth 16
    condBranch := cb }

def MPPBranchInfo.getHashFilter (bi : MPPBranchInfo) (last_ghist_bit : Bool) : Nat :=
  (bi.hpc ^^^ (if last_ghist_bit then 1 else 0)).toNat

structure FilterEntry where
  seenTaken : Bool := false
  seenUntaken : Bool := false
deriving DecidableEq

def FilterEntry.alwaysNotTakenSoFar (f : FilterEntry) : Bool := f.seenUntaken && !f.seenTaken

def FilterEntry.alwaysTakenSoFar (f : FilterEntry) : Bool := f.seenTaken && !f.seenUntaken

structure ThreadData where
  filterTable : List FilterEntry
  acyclic_histories : List (List Bool)
  acyclic2_histories : List (List (BitVec 32))
  blurrypath_histories : List (List (BitVec 32))
  ghist_words : List (BitVec 32)
  modpath_histories : List (List (BitVec 16))
  mod_histories : List (List Bool)
  path_history : List (BitVec 16)
  imli_counter : List (BitVec 32)
  localHistories : List (BitVec 32)
  recency_stack : List (BitVec 16)
  last_ghist_bit : Bool
  occupancy : Int
deriving DecidableEq

def indexed {α : Type} (indices lengths : List Nat) (zero : α) : List (List α) :=
  (List.range ((indices.map (· + 1)).foldl max 0)).map fun i =>
    List.replicate (((indices.zip lengths).lookup i).getD 0) zero

def ThreadData.init (p : Params) : ThreadData where
  filterTable := List.replicate p.num_filter_entries {}
  acyclic_histories := p.acyclic_sizes.map (List.replicate · false)
  acyclic2_histories := p.acyclic_sizes.map (List.replicate · 0)
  blurrypath_histories := p.blurrypath_sizes.map (List.replicate · 0)
  ghist_words := List.replicate (p.ghist_length / p.blockSize + 1) 0
  modpath_histories := indexed p.modpath_indices p.modpath_lengths 0
  mod_histories := indexed p.modhist_indices p.modhist_lengths false
  path_history := List.replicate p.path_length 0
  imli_counter := List.replicate 4 0
  localHistories := List.replicate p.num_local_histories 0
  recency_stack := List.replicate p.assoc 0
  last_ghist_bit := false
  occupancy := 0

section

variable (p : Params)

def shiftWords : Bool → List (BitVec 32) → List (BitVec 32)
  | _, [] => []
  | ab, word :: words =>
      (((word <<< 1) ||| (if ab then 1 else 0)) &&& ((1 <<< p.blockSize) - 1)) ::
        shiftWords (word.getLsbD (p.blockSize - 1)) words

def insertFront {α : Type} (x : α) (history : List α) : List α := (x :: history).take history.length

def modifyAt {α : Type} (indices : List Nat) (f : List α → List α) (histories : List (List α)) :
    List (List α) :=
  indices.foldl (fun histories i => histories.modify i f) histories

def selected (hpc : BitVec 16) (indices : List Nat) : List Nat :=
  indices.filter fun i => hpc.toNat % (i + 2) = 0

def updateAcyclic {α : Type} (hpc : BitVec 16) (value : α) (histories : List (List α)) :
    List (List α) :=
  histories.mapIdx fun i history => history.set (hpc.toNat % (i + 2)) value

def updateBlurry (pc : BitVec 32) (histories : List (List (BitVec 32))) :
    List (List (BitVec 32)) :=
  histories.mapIdx fun i history =>
    match history with
    | [] => []
    | newest :: _ => if newest ≠ pc >>> i then insertFront (pc >>> i) history else history

def insertRecency (pc : BitVec 16) (stack : List (BitVec 16)) : List (BitVec 16) :=
  let found := stack.findIdx (· == pc)
  let (i, stack) :=
    if found = p.assoc then (p.assoc - 1, stack.set (p.assoc - 1) pc) else (found, stack)
  stack.getD i 0 :: stack.eraseIdx i

def updateLocal (pc : BitVec 32) (value : Bool) (histories : List (BitVec 32)) :
    List (BitVec 32) :=
  histories.modify ((pc >>> 2).toNat % histories.length) fun pos =>
    ((pos <<< 1) ||| (if value then 1 else 0)) &&& ((1 <<< p.local_history_length) - 1)

def updateImli (taken backward : Bool) (counters : List (BitVec 32)) : List (BitVec 32) :=
  let (up, down) := if backward then (0, 1) else (2, 3)
  let counters := counters.modify up fun c => if taken then c + 1 else 0
  counters.modify down fun c => if !taken then c + 1 else 0

/-- The filter and its occupancy after a branch that commits; `rnd` is the random
number with which an entry is blown away. -/
def updateFilter (filterTable : List FilterEntry) (occupancy : Int) (last_ghist_bit : Bool)
    (bi : MPPBranchInfo) (taken : Bool) (rnd : Nat) : List FilterEntry × Int :=
  if filterTable.isEmpty then (filterTable, occupancy)
  else
    let findex := bi.getHashFilter last_ghist_bit % filterTable.length
    let f := filterTable.getD findex {}
    let transition := if taken then f.alwaysNotTakenSoFar else f.alwaysTakenSoFar
    let f := if taken then { f with seenTaken := true } else { f with seenUntaken := true }
    let filterTable := filterTable.set findex f
    let occupancy := if transition then occupancy + 1 else occupancy
    if p.decay ≠ 0 ∧ transition = true ∧ (p.decay < occupancy ∨ p.decay = 1) then
      let rnd := rnd % filterTable.length
      let frand := filterTable.getD rnd {}
      (filterTable.set rnd {},
        if frand.seenTaken && frand.seenUntaken then occupancy - 1 else occupancy)
    else (filterTable, occupancy)

def recorded (bi : MPPBranchInfo) (bit : BitVec 32) : Bool :=
  !bi.filtered || decide (p.record_mask &&& bit ≠ 0)

end

section

variable (p : Params)

def lookup (data : ThreadData) (instPC : Addr) : MPPBranchInfo :=
  let bi := newBranchInfo p instPC true
  if data.filterTable.isEmpty then bi
  else
    let f := data.filterTable.getD
      (bi.getHashFilter data.last_ghist_bit % data.filterTable.length) {}
    { bi with filtered := f.alwaysNotTakenSoFar || f.alwaysTakenSoFar }

def updateHistories (data : ThreadData) (pc : Addr) (uncond : Bool)
    (bp_history : Option MPPBranchInfo) : ThreadData × Option MPPBranchInfo :=
  if !uncond then (data, bp_history)
  else
    ({ data with
        ghist_words := shiftWords p (!pc.getLsbD p.pcbit) data.ghist_words
        path_history := insertFront ((pc >>> 2).setWidth 16) data.path_history },
      some (newBranchInfo p pc false))

def recordBranch (data : ThreadData) (bi : MPPBranchInfo) (taken : Bool) (target : Addr)
    (rnd : Nat) : ThreadData :=
  let filter := updateFilter p data.filterTable data.occupancy data.last_ghist_bit bi taken rnd
  let hashed_taken := if p.hash_taken then taken != bi.pc.getLsbD p.pcbit else taken
  { filterTable := filter.1
    occupancy := filter.2
    imli_counter :=
      if recorded p bi 1 then updateImli taken (decide (target < bi.pc.setWidth 64)) data.imli_counter
      else data.imli_counter
    ghist_words :=
      if recorded p bi 2 then shiftWords p hashed_taken data.ghist_words else data.ghist_words
    path_history :=
      if recorded p bi 4 then insertFront bi.pc2 data.path_history else data.path_history
    acyclic_histories :=
      if recorded p bi 8 then updateAcyclic bi.hpc hashed_taken data.acyclic_histories
      else data.acyclic_histories
    acyclic2_histories :=
      if recorded p bi 8 then updateAcyclic bi.hpc (bi.hpc.setWidth 32) data.acyclic2_histories
      else data.acyclic2_histories
    modpath_histories :=
      if recorded p bi 16 then
        modifyAt (selected bi.hpc p.modpath_indices) (insertFront bi.pc2) data.modpath_histories
      else data.modpath_histories
    blurrypath_histories :=
      if recorded p bi 32 then updateBlurry bi.pc data.blurrypath_histories
      else data.blurrypath_histories
    mod_histories :=
      if recorded p bi 16 then
        modifyAt (selected bi.hpc p.modhist_indices) (insertFront hashed_taken) data.mod_histories
      else data.mod_histories
    recency_stack :=
      if p.doing_recency && recorded p bi 128 then insertRecency p bi.pc2 data.recency_stack
      else data.recency_stack
    localHistories :=
      if recorded p bi 64 then updateLocal p bi.pc hashed_taken data.localHistories
      else data.localHistories
    last_ghist_bit := taken }

def update (data : ThreadData) (taken : Bool) (bi : MPPBranchInfo) (squashed : Bool)
    (target : Addr) (rnd : Nat) : ThreadData × Option MPPBranchInfo :=
  if squashed then (data, some bi)
  else if !bi.condBranch then (data, none)
  else (recordBranch p data bi taken target rnd, none)

def squash (data : ThreadData) (_bi : MPPBranchInfo) : ThreadData × Option MPPBranchInfo :=
  (data, none)

end

end Gem5Core.Pred.MultiperspectivePerceptron
