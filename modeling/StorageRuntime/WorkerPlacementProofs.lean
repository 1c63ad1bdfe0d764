import Mathlib.Algebra.BigOperators.Group.List.Lemmas
import Mathlib.Algebra.Group.Action.Defs
import Mathlib.Algebra.Order.BigOperators.Group.List
import Mathlib.Algebra.Order.Ring.Nat
import Mathlib.Data.List.Count
import StorageRuntime.WordArithmeticProofs

/-!
# Worker placement — how many workers a NUMA node gets, and which

The constructors of `WorkStealingExecutor` and of `OnlineWorkerGroup` divide the workers
among the NUMA nodes that hwloc reports, evenly or in proportion to the physical cores,
create them node by node under running numbers, and note which belong together: the
executor in the peer lists, the group in one list per node.

`size_t` arithmetic wraps around (`WordArithmetic`).

* `sum_shares`: the proportional shares, of which the last is a difference, add up.
* `Executor.build` and `Group.build` are what the constructors leave, as functions of the
  list of places; each turn of the loops appends one place.
* **`placement_adds_up`**: the counts add up to `num_workers`, the workers are numbered
  from 0, each is where its node's workers are, and peers are those of one node.
-/

namespace Placement

open WordArithmetic

/-! ## Topology -/

/-- A processing unit; `first` if it is the first of its core. -/
structure Pu where
  osIndex : Nat
  first : Bool

/-- A NUMA node.  hwloc counts its units in an `unsigned`. -/
structure Node where
  pus : List Pu
  few : pus.length < 2 ^ 32

/-- What hwloc reports.  The number of nodes is an `int`. -/
structure Topology where
  nodes : List Node
  few : nodes.length < 2 ^ 31

/-- The physical cores of the node. -/
def Node.physCores (node : Node) : Nat := (node.pus.filter Pu.first).length

/-- The units of the node that workers are pinned to. -/
def Node.cpus (useHtSiblings : Bool) (node : Node) : List Nat :=
  (node.pus.filter fun pu => useHtSiblings || pu.first).map Pu.osIndex

/-- `numa_count`. -/
def Topology.numaCount (topo : Topology) : Nat := max 1 topo.nodes.length

/-- The physical cores that the executor counts for node `n`; 1 if there are none, or no such
    node. -/
def Topology.phys (topo : Topology) (n : Nat) : Nat :=
  match topo.nodes[n]? with
  | none => 1
  | some node => if node.physCores = 0 then 1 else node.physCores

def Topology.physPerNuma (topo : Topology) : List Nat :=
  (List.range topo.numaCount).map topo.phys

/-- `per_numa_pus[n]`. -/
def Topology.cpus (topo : Topology) (useHtSiblings : Bool) (n : Nat) : List Nat :=
  (topo.nodes[n]?).elim [] (Node.cpus useHtSiblings)

/-- `std::accumulate` over `size_t`. -/
def accumulate (l : List Nat) : Nat := l.foldl wadd 0

/-! ## Counts -/

/-- The even distribution. -/
def evenShares (total numaCount : Nat) : List Nat :=
  (List.range numaCount).map fun n => total / numaCount + if n < total % numaCount then 1 else 0

/-- The proportional distribution over the nodes that are left, when `allocated` workers are
    placed: all but the last get their share rounded down, the last what is left. -/
def proportionalShares (total totalPhys : Nat) : Nat → List Nat → List Nat
  | _, [] => []
  | allocated, [_] => [wsub total allocated]
  | allocated, phys :: p :: rest =>
    let share := total * phys % wordSize / totalPhys
    share :: proportionalShares total totalPhys (wadd allocated share) (p :: rest)

/-- `WorkStealingExecutor::Config`. -/
structure ExecutorConfig where
  numWorkers : Nat
  numaAwareStealing : Bool
  pinCpus : Bool
  useHtSiblings : Bool
  small : numWorkers < wordSize

/-- `per_numa` and `total_workers`. -/
def ExecutorConfig.counts (cfg : ExecutorConfig) (topo : Topology) : List Nat × Nat :=
  let perNuma :=
    if cfg.numWorkers = 0 then topo.physPerNuma
    else if cfg.numaAwareStealing then
      proportionalShares cfg.numWorkers (accumulate topo.physPerNuma) 0 topo.physPerNuma
    else evenShares cfg.numWorkers topo.numaCount
  let total := if cfg.numWorkers = 0 then accumulate perNuma else cfg.numWorkers
  if total = 0 then (perNuma.set 0 1, 1) else (perNuma, total)

/-! ## The counts add up -/

/-- `m` for each of the first `k` numbers, and one more for those below `r`. -/
theorem sum_base_extra (m r k : Nat) :
    ((List.range k).map fun n => m + if n < r then 1 else 0).sum = k * m + min k r := by
  induction k with
  | zero => simp
  | succ k ih =>
    rw [List.range_succ, List.map_append, List.sum_append, ih, List.map_singleton,
      List.sum_singleton, Nat.succ_mul]
    split <;> omega

/-- The even shares add up. -/
theorem sum_evenShares (total : Nat) {numaCount : Nat} (h : 0 < numaCount) :
    (evenShares total numaCount).sum = total := by
  have hmod : total % numaCount < numaCount := Nat.mod_lt total h
  rw [evenShares, sum_base_extra, Nat.min_eq_right (Nat.le_of_lt hmod)]
  exact Nat.div_add_mod total numaCount

/-- **The proportional shares add up**, and what is allocated before the last one does not
    exceed the total, so that the difference does not wrap around. -/
theorem sum_shares {total totalPhys : Nat} (htotal : total < wordSize) (hpos : 0 < totalPhys) :
    ∀ (l : List Nat) (allocated : Nat), l ≠ [] → (∀ phys ∈ l, total * phys < wordSize) →
      totalPhys * allocated + total * l.sum ≤ total * totalPhys →
      allocated + (proportionalShares total totalPhys allocated l).dropLast.sum ≤ total ∧
      allocated + (proportionalShares total totalPhys allocated l).sum = total := by
  intro l
  induction l with
  | nil => intro _ hne; exact absurd rfl hne
  | cons phys l ih =>
    intro allocated _ hsmall hroom
    -- multiplied by `totalPhys`, what is allocated is at most the share of the cores so far
    have hle : allocated ≤ total := by
      refine Nat.le_of_mul_le_mul_left ?_ hpos
      rw [Nat.mul_comm totalPhys total]
      exact Nat.le_trans (Nat.le_add_right _ _) hroom
    cases l with
    | nil =>
      have hlast : wsub total allocated = total - allocated := wsub_eq hle htotal
      simp only [proportionalShares, hlast, List.dropLast_singleton, List.sum_nil,
        List.sum_singleton]
      omega
    | cons p rest =>
      have hprod : total * phys % wordSize = total * phys :=
        Nat.mod_eq_of_lt (hsmall phys List.mem_cons_self)
      have hshare : totalPhys * (total * phys / totalPhys) ≤ total * phys :=
        Nat.mul_div_le (total * phys) totalPhys
      rw [List.sum_cons, Nat.mul_add] at hroom
      have hroom' : totalPhys * (allocated + total * phys / totalPhys) +
          total * (p :: rest).sum ≤ total * totalPhys := by
        rw [Nat.mul_add]
        omega
      have hle' : allocated + total * phys / totalPhys ≤ total := by
        refine Nat.le_of_mul_le_mul_left ?_ hpos
        rw [Nat.mul_comm totalPhys total]
        exact Nat.le_trans (Nat.le_add_right _ _) hroom'
      have hadd : wadd allocated (total * phys / totalPhys) =
          allocated + total * phys / totalPhys := wadd_eq (by omega)
      obtain ⟨hbefore, hsum⟩ := ih (allocated + total * phys / totalPhys)
        (List.cons_ne_nil p rest) (fun q hq => hsmall q (List.mem_cons_of_mem phys hq)) hroom'
      simp only [proportionalShares, hprod, hadd]
      have hne : proportionalShares total totalPhys (allocated + total * phys / totalPhys)
          (p :: rest) ≠ [] := by
        cases rest <;> exact List.cons_ne_nil _ _
      rw [List.dropLast_cons_of_ne_nil hne, List.sum_cons, List.sum_cons]
      omega

theorem length_shares (total totalPhys : Nat) : ∀ (l : List Nat) (allocated : Nat),
    (proportionalShares total totalPhys allocated l).length = l.length := by
  intro l
  induction l with
  | nil => intro _; rfl
  | cons phys l ih =>
    intro allocated
    cases l with
    | nil => rfl
    | cons p rest => exact congrArg (· + 1) (ih _)

theorem foldl_wadd : ∀ (l : List Nat) (n : Nat), n + l.sum < wordSize →
    l.foldl wadd n = n + l.sum := by
  intro l
  induction l with
  | nil => intro n _; rfl
  | cons a l ih =>
    intro n h
    rw [List.sum_cons, ← Nat.add_assoc] at h
    rw [List.foldl_cons, wadd_eq (by omega), ih (n + a) h, List.sum_cons, Nat.add_assoc]

section Counts

variable (topo : Topology)

theorem numaCount_pos : 0 < topo.numaCount := Nat.le_max_left 1 _

theorem phys_pos (n : Nat) : 0 < topo.phys n := by
  rw [Topology.phys]
  split
  next => exact Nat.zero_lt_one
  next =>
    split
    next => exact Nat.zero_lt_one
    next hne => exact Nat.pos_of_ne_zero hne

theorem phys_le (n : Nat) : topo.phys n ≤ 2 ^ 32 := by
  rw [Topology.phys]
  split
  next => decide
  next node _ =>
    split
    next => decide
    next => exact Nat.le_trans (List.length_filter_le _ _) (Nat.le_of_lt node.few)

/-- There are not so many cores that their number wraps around. -/
theorem sum_phys_lt : topo.physPerNuma.sum < wordSize := by
  have hle : topo.physPerNuma.sum ≤ topo.physPerNuma.length • 2 ^ 32 := by
    refine List.sum_le_card_nsmul _ _ ?_
    intro phys hphys
    obtain ⟨n, -, rfl⟩ := List.mem_map.mp hphys
    exact phys_le topo n
  have hlen : topo.physPerNuma.length ≤ 2 ^ 31 := by
    rw [Topology.physPerNuma, List.length_map, List.length_range, Topology.numaCount]
    exact Nat.max_le.mpr ⟨by decide, Nat.le_of_lt topo.few⟩
  rw [smul_eq_mul] at hle
  rw [wordSize]
  omega

theorem physPerNuma_ne_nil : topo.physPerNuma ≠ [] := by
  intro hnil
  have hlen := congrArg List.length hnil
  rw [Topology.physPerNuma, List.length_map, List.length_range] at hlen
  exact absurd hlen (Nat.ne_of_gt (numaCount_pos topo))

theorem sum_phys_pos : 0 < topo.physPerNuma.sum := by
  obtain ⟨phys, rest, hcons⟩ := List.exists_cons_of_ne_nil (physPerNuma_ne_nil topo)
  have hmem : phys ∈ topo.physPerNuma := by
    rw [hcons]
    exact List.mem_cons_self
  obtain ⟨n, -, rfl⟩ := List.mem_map.mp hmem
  rw [hcons, List.sum_cons]
  exact Nat.add_pos_left (phys_pos topo n) _

/-- The counts of the nodes add up to the workers.  The last count is what the others leave,
    which is not negative. -/
structure AddsUp (perNuma : List Nat) (total : Nat) : Prop where
  nodes : perNuma.length = topo.numaCount
  sum : perNuma.sum = total
  noUnderflow : perNuma.dropLast.sum ≤ total

variable {topo}

theorem AddsUp.of_sum {perNuma : List Nat} {total : Nat} (hnodes : perNuma.length = topo.numaCount)
    (hsum : perNuma.sum = total) : AddsUp topo perNuma total := by
  refine ⟨hnodes, hsum, ?_⟩
  rw [← hsum]
  exact (List.dropLast_sublist perNuma).sum_le_sum fun _ _ => Nat.zero_le _

theorem even_addsUp (total : Nat) : AddsUp topo (evenShares total topo.numaCount) total := by
  refine AddsUp.of_sum ?_ (sum_evenShares total (numaCount_pos topo))
  rw [evenShares, List.length_map, List.length_range]

/-- **Both distributions of the executor add up.** -/
theorem counts_addUp (cfg : ExecutorConfig) (hone : 1 ≤ cfg.numWorkers)
    (hprod : ∀ phys ∈ topo.physPerNuma, cfg.numWorkers * phys < wordSize) :
    AddsUp topo (cfg.counts topo).1 cfg.numWorkers ∧ (cfg.counts topo).2 = cfg.numWorkers := by
  have hne : cfg.numWorkers ≠ 0 := Nat.ne_of_gt hone
  simp only [ExecutorConfig.counts, if_neg hne]
  refine ⟨?_, trivial⟩
  split
  next =>
    have htotal : accumulate topo.physPerNuma = topo.physPerNuma.sum := by
      rw [accumulate, foldl_wadd _ _ (by rw [Nat.zero_add]; exact sum_phys_lt topo), Nat.zero_add]
    obtain ⟨hbefore, hsum⟩ := sum_shares cfg.small (sum_phys_pos topo) topo.physPerNuma 0
      (physPerNuma_ne_nil topo) hprod (by rw [Nat.mul_zero, Nat.zero_add])
    rw [Nat.zero_add] at hbefore hsum
    rw [htotal]
    refine ⟨?_, hsum, hbefore⟩
    rw [length_shares, Topology.physPerNuma, List.length_map, List.length_range]
  next => exact even_addsUp cfg.numWorkers

end Counts

/-! ## The loops that create the workers -/

section Loops

variable {σ : Type}

/-- The inner loop, with `count` workers of node `n` to go and `w` created: as long as there
    may be more, `push` creates one. -/
def createNode (more : σ → Bool) (push : Nat → Nat → σ → σ) (n : Nat) : Nat → Nat → σ → σ
  | 0, _, s => s
  | count + 1, w, s => if more s then createNode more push n count (w + 1) (push n w s) else s

/-- The outer loop from node `n` on. -/
def createFrom (more : σ → Bool) (push : Nat → Nat → σ → σ) : Nat → List Nat → σ → σ
  | _, [], s => s
  | n, count :: counts, s => createFrom more push (n + 1) counts (createNode more push n count 0 s)

/-- Node and running number inside the node, for all workers from node `n` on. -/
def placesFrom : Nat → List Nat → List (Nat × Nat)
  | _, [] => []
  | n, count :: counts => (List.range count).map (n, ·) ++ placesFrom (n + 1) counts

variable (more : σ → Bool) (push : Nat → Nat → σ → σ) (build : List (Nat × Nat) → σ) {total : Nat}

/-- The inner loop appends the places of its node. -/
theorem createNode_eq (hmore : ∀ l, l.length < total → more (build l) = true)
    (hpush : ∀ l n w, push n w (build l) = build (l ++ [(n, w)])) (n : Nat) :
    ∀ (count w : Nat) (l : List (Nat × Nat)), l.length + count ≤ total →
      createNode more push n count w (build l) =
        build (l ++ (List.range' w count).map (n, ·)) := by
  intro count
  induction count with
  | zero =>
    intro w l _
    rw [createNode, List.range'_zero, List.map_nil, List.append_nil]
  | succ count ih =>
    intro w l hroom
    rw [createNode, if_pos (hmore l (by omega)), hpush, ih]
    · rw [List.range'_succ, List.map_cons, List.append_assoc, List.singleton_append]
    · rw [List.length_append, List.length_singleton]
      omega

/-- **The loops create one worker for each place.** -/
theorem createFrom_eq (hmore : ∀ l, l.length < total → more (build l) = true)
    (hpush : ∀ l n w, push n w (build l) = build (l ++ [(n, w)])) :
    ∀ (counts : List Nat) (n : Nat) (l : List (Nat × Nat)), l.length + counts.sum ≤ total →
      createFrom more push n counts (build l) = build (l ++ placesFrom n counts) := by
  intro counts
  induction counts with
  | nil =>
    intro n l _
    rw [createFrom, placesFrom, List.append_nil]
  | cons count counts ih =>
    intro n l hroom
    rw [List.sum_cons] at hroom
    rw [createFrom, createNode_eq more push build hmore hpush n count 0 l (by omega), ih,
      placesFrom, List.range_eq_range', List.append_assoc]
    rw [List.length_append, List.length_map, List.length_range']
    omega

theorem length_placesFrom : ∀ (counts : List Nat) (n : Nat),
    (placesFrom n counts).length = counts.sum := by
  intro counts
  induction counts with
  | nil => intro n; rfl
  | cons count counts ih =>
    intro n
    rw [placesFrom, List.length_append, List.length_map, List.length_range, ih, List.sum_cons]

/-- Each node has its count of places. -/
theorem count_placesFrom : ∀ (counts : List Nat) (n m : Nat),
    ((placesFrom n counts).map Prod.fst).count m = if n ≤ m then counts.getD (m - n) 0 else 0 := by
  intro counts
  induction counts with
  | nil =>
    intro n m
    simp [placesFrom]
  | cons count counts ih =>
    intro n m
    have hnode : ((List.range count).map (n, ·)).map Prod.fst = List.replicate count n := by
      rw [List.map_map]
      show (List.range count).map (fun _ => n) = _
      rw [List.map_const', List.length_range]
    rw [placesFrom, List.map_append, List.count_append, hnode, List.count_replicate, ih]
    rcases Nat.lt_trichotomy n m with hlt | rfl | hgt
    · obtain ⟨k, rfl⟩ := Nat.exists_eq_add_of_lt hlt
      have hk : n + k + 1 - n = k + 1 := by omega
      have hk' : n + k + 1 - (n + 1) = k := by omega
      rw [if_neg (by simp; omega), if_pos (by omega), if_pos (by omega), hk, hk', Nat.zero_add,
        List.getD_cons_succ]
    · rw [if_pos (beq_self_eq_true n), if_neg (by omega), if_pos (Nat.le_refl n), Nat.sub_self,
        List.getD_cons_zero, Nat.add_zero]
    · rw [if_neg (by simp; omega), if_neg (by omega), if_neg (by omega)]

/-- What the constructors leave, if each turn appends what `push` makes of the place. -/
def places (counts : List Nat) : List (Nat × Nat) := placesFrom 0 counts

theorem length_places (counts : List Nat) : (places counts).length = counts.sum :=
  length_placesFrom counts 0

theorem count_places (counts : List Nat) (n : Nat) :
    ((places counts).map Prod.fst).count n = counts.getD n 0 := by
  rw [places, count_placesFrom, if_pos (Nat.zero_le n), Nat.sub_zero]

end Loops

/-! ## The executor -/

/-- What of `WorkStealingExecutor::WorkerState` the constructor decides; no CPU for -1. -/
structure WorkerState where
  id : Nat
  numaNode : Nat
  hwlocCpu : Option Nat
deriving DecidableEq

structure Executor where
  workers : List WorkerState
  workerNumaNode : List Nat
  numaPeers : List (List Nat)

section Executor

variable (cfg : ExecutorConfig) (topo : Topology)

/-- The CPU of worker `w` of node `n`. -/
def ExecutorConfig.cpu (n w : Nat) : Option Nat :=
  let pus := topo.cpus cfg.useHtSiblings n
  if cfg.pinCpus then pus[w % pus.length]? else none

/-- The body of the inner loop; `global_id` is the number of workers so far. -/
def ExecutorConfig.push (n w : Nat) (e : Executor) : Executor :=
  { e with
    workers := e.workers ++ [⟨e.workers.length, n, cfg.cpu topo n w⟩]
    workerNumaNode := e.workerNumaNode ++ [n] }

/-- The peer lists. -/
def ExecutorConfig.peers (nodes : List Nat) : List (List Nat) :=
  (List.range nodes.length).map fun i => (List.range nodes.length).filter fun j =>
    decide (i ≠ j) && (!cfg.numaAwareStealing || nodes[i]? == nodes[j]?)

/-- The constructor. -/
def ExecutorConfig.make : Executor :=
  let e := createFrom (fun e : Executor => e.workers.length < (cfg.counts topo).2)
    (cfg.push topo) 0 (cfg.counts topo).1 ⟨[], [], []⟩
  { e with numaPeers := cfg.peers e.workerNumaNode }

/-- What the loops have created when they have gone through these places. -/
def ExecutorConfig.build (l : List (Nat × Nat)) : Executor where
  workers := l.zipIdx.map fun x => ⟨x.2, x.1.1, cfg.cpu topo x.1.1 x.1.2⟩
  workerNumaNode := l.map Prod.fst
  numaPeers := []

theorem length_build (l : List (Nat × Nat)) : (cfg.build topo l).workers.length = l.length := by
  rw [ExecutorConfig.build, List.length_map, List.length_zipIdx]

theorem push_build (l : List (Nat × Nat)) (n w : Nat) :
    cfg.push topo n w (cfg.build topo l) = cfg.build topo (l ++ [(n, w)]) := by
  rw [ExecutorConfig.push, length_build]
  simp only [ExecutorConfig.build, List.zipIdx_append, List.map_append, List.zipIdx_singleton,
    List.map_singleton, Nat.zero_add]

/-- **What the constructor leaves.** -/
theorem make_eq (hsum : (cfg.counts topo).1.sum = (cfg.counts topo).2) :
    cfg.make topo = { cfg.build topo (places (cfg.counts topo).1) with
      numaPeers := cfg.peers ((places (cfg.counts topo).1).map Prod.fst) } := by
  have hmore : ∀ l : List (Nat × Nat), l.length < (cfg.counts topo).2 →
      decide ((cfg.build topo l).workers.length < (cfg.counts topo).2) = true := by
    intro l hl
    rw [length_build]
    exact decide_eq_true hl
  have hloop := createFrom_eq (fun e : Executor => e.workers.length < (cfg.counts topo).2)
    (cfg.push topo) (cfg.build topo) hmore (push_build cfg topo) (cfg.counts topo).1 0 []
    (by rw [hsum, List.length_nil, Nat.zero_add])
  have hstart : (⟨[], [], []⟩ : Executor) = cfg.build topo [] := rfl
  rw [ExecutorConfig.make, hstart, hloop]
  rfl

theorem ids_build (l : List (Nat × Nat)) :
    (cfg.build topo l).workers.map WorkerState.id = List.range l.length := by
  rw [ExecutorConfig.build, List.map_map, List.range_eq_range', ← List.zipIdx_map_snd]
  rfl

/-- The nodes of the workers are those of the places. -/
theorem nodes_build (l : List (Nat × Nat)) :
    (cfg.build topo l).workers.map WorkerState.numaNode = l.map Prod.fst := by
  rw [ExecutorConfig.build, List.map_map]
  conv_rhs => rw [← List.zipIdx_map_fst 0 l, List.map_map]
  rfl

/-- With NUMA-aware stealing the peers are the others of the same node. -/
theorem mem_peers (haware : cfg.numaAwareStealing = true) (nodes : List Nat) (i j : Nat) :
    j ∈ (cfg.peers nodes).getD i [] ↔ i ≠ j ∧ ∃ n, nodes[i]? = some n ∧ nodes[j]? = some n := by
  rw [ExecutorConfig.peers, haware, List.getD_eq_getElem?_getD, List.getElem?_map]
  by_cases hi : i < nodes.length
  · rw [List.getElem?_range hi, Option.map_some, Option.getD_some, List.mem_filter, List.mem_range]
    simp only [Bool.not_true, Bool.false_or, Bool.and_eq_true, decide_eq_true_eq, beq_iff_eq]
    constructor
    · rintro ⟨-, hne, hsame⟩
      have hnode : nodes[i]? = some nodes[i] := List.getElem?_eq_getElem hi
      exact ⟨hne, nodes[i], hnode, hsame.symm.trans hnode⟩
    · rintro ⟨hne, n, hin, hjn⟩
      exact ⟨(List.getElem?_eq_some_iff.mp hjn).1, hne, hin.trans hjn.symm⟩
  · rw [List.getElem?_eq_none (by rw [List.length_range]; omega)]
    constructor
    · intro hmem
      cases hmem
    · rintro ⟨-, n, hin, -⟩
      exact absurd (List.getElem?_eq_some_iff.mp hin).1 hi

end Executor

/-! ## The group -/

/-- `OnlineWorkerGroup::Config`. -/
structure GroupConfig where
  numWorkers : Nat
  baseCpuId : Nat
  autoDiscoverNuma : Bool
  perNumaWorkers : List Nat
  pinCpu : Bool
  useHtSiblings : Bool
  bindMemory : Bool
  registerGlobal : Bool

/-- What the group decides about a worker: its CPU and node in `Worker::Config`, where 0 is
    none, and the node that it is created for. -/
structure GroupWorker where
  cpuId : Nat
  numaNode : Nat
  node : Nat
deriving DecidableEq

/-- The group.  A worker is known by its index in `workers`; `registered` are the calls of
    `register_worker`. -/
structure Group where
  workers : List GroupWorker
  workerRanks : List Nat
  numaWorkerLists : List (List Nat)
  registered : List (Nat × Nat)

section Group

variable (cfg : GroupConfig) (topo : Topology)

/-- `per_numa`. -/
def GroupConfig.counts : List Nat :=
  if cfg.perNumaWorkers = [] then
    if cfg.numWorkers = 0 then topo.nodes.map Node.physCores
    else evenShares cfg.numWorkers topo.numaCount
  else cfg.perNumaWorkers.take topo.numaCount ++
    List.replicate (topo.numaCount - cfg.perNumaWorkers.length) 0

/-- `cpu_id` of worker `w` of node `n`, the `globalId`-th of all. -/
def GroupConfig.cpuId (n w globalId : Nat) : Nat :=
  let pus := topo.cpus cfg.useHtSiblings n
  match pus[w % pus.length]? with
  | some pu =>
    if cfg.pinCpu then (pu + 1) % 2 ^ 32
    else if 0 < cfg.baseCpuId then (cfg.baseCpuId + globalId) % 2 ^ 32 else 0
  | none => if 0 < cfg.baseCpuId then (cfg.baseCpuId + globalId) % 2 ^ 32 else 0

/-- Worker `w` of node `n`. -/
def GroupConfig.worker (n w globalId : Nat) : GroupWorker where
  cpuId := cfg.cpuId topo n w globalId
  numaNode := if cfg.bindMemory then n + 1 else 0
  node := n

/-- The body of the inner loop. -/
def GroupConfig.push (n w : Nat) (g : Group) : Group where
  workers := g.workers ++ [cfg.worker topo n w g.workers.length]
  workerRanks := g.workerRanks ++ [g.workers.length]
  numaWorkerLists := g.numaWorkerLists.modify n (· ++ [g.workers.length])
  registered := if cfg.registerGlobal then g.registered ++ [(g.workers.length, n)]
    else g.registered

/-- `discover_topology`.  Without any NUMA node it dereferences a null pointer. -/
def GroupConfig.discoverTopology : Option Group :=
  match topo.nodes with
  | [] => none
  | _ => some (createFrom (fun _ => true) (cfg.push topo) 0 (cfg.counts topo)
      ⟨[], [], List.replicate topo.numaCount [], []⟩)

/-- The workers of the first `m` places that are of node `n`. -/
def ofNode (l : List (Nat × Nat)) (n : Nat) : List Nat :=
  (List.range l.length).filter fun i => (l[i]?).map Prod.fst == some n

/-- What the loops have created when they have gone through these places. -/
def GroupConfig.build (l : List (Nat × Nat)) : Group where
  workers := l.zipIdx.map fun x => cfg.worker topo x.1.1 x.1.2 x.2
  workerRanks := List.range l.length
  numaWorkerLists := (List.range topo.numaCount).map (ofNode l)
  registered := if cfg.registerGlobal then l.zipIdx.map fun x => (x.2, x.1.1) else []

theorem ofNode_snoc (l : List (Nat × Nat)) (n w m : Nat) :
    ofNode (l ++ [(n, w)]) m = if n = m then ofNode l m ++ [l.length] else ofNode l m := by
  have hbefore : ∀ i ∈ List.range l.length,
      (((l ++ [(n, w)])[i]?).map Prod.fst == some m) = ((l[i]?).map Prod.fst == some m) := by
    intro i hi
    rw [List.getElem?_append_left (List.mem_range.mp hi)]
  have hlast : ((l ++ [(n, w)])[l.length]?).map Prod.fst = some n := by
    rw [List.getElem?_concat_length]
    rfl
  rw [ofNode, List.length_append, List.length_singleton, List.range_succ, List.filter_append,
    List.filter_congr hbefore, List.filter_singleton, hlast]
  by_cases hnm : n = m
  · subst hnm
    rw [if_pos rfl, beq_self_eq_true]
    rfl
  · have hne : (some n == some m) = false := beq_eq_false_iff_ne.mpr (by simpa using hnm)
    rw [if_neg hnm, hne, cond_false, List.append_nil]
    rfl

theorem length_workers (l : List (Nat × Nat)) : (cfg.build topo l).workers.length = l.length := by
  rw [GroupConfig.build, List.length_map, List.length_zipIdx]

theorem group_push_build (l : List (Nat × Nat)) (n w : Nat) :
    cfg.push topo n w (cfg.build topo l) = cfg.build topo (l ++ [(n, w)]) := by
  have hlists : ((List.range topo.numaCount).map (ofNode l)).modify n (· ++ [l.length]) =
      (List.range topo.numaCount).map (ofNode (l ++ [(n, w)])) := by
    refine List.ext_getElem? ?_
    intro m
    rw [List.getElem?_modify, List.getElem?_map, List.getElem?_map]
    by_cases hm : m < topo.numaCount
    · rw [List.getElem?_range hm, Option.map_some, Option.map_some, ofNode_snoc]
      rfl
    · rw [List.getElem?_eq_none (by rw [List.length_range]; omega)]
      rfl
  rw [GroupConfig.push, length_workers]
  simp only [GroupConfig.build, hlists, List.zipIdx_append, List.map_append,
    List.zipIdx_singleton, List.map_singleton, Nat.zero_add, List.length_append,
    List.length_singleton, List.range_succ]
  split <;> rfl

/-- **What `discover_topology` leaves.** -/
theorem discover_eq (hnodes : topo.nodes ≠ []) :
    cfg.discoverTopology topo = some (cfg.build topo (places (cfg.counts topo))) := by
  have hloop := createFrom_eq (fun _ : Group => true) (cfg.push topo) (cfg.build topo)
    (fun _ _ => rfl) (group_push_build cfg topo) (cfg.counts topo) 0 [] (Nat.le_refl _)
  have hstart : cfg.build topo [] = ⟨[], [], List.replicate topo.numaCount [], []⟩ := by
    have hlists : (List.range topo.numaCount).map (ofNode []) =
        List.replicate topo.numaCount [] := by
      show (List.range topo.numaCount).map (fun _ => []) = _
      rw [List.map_const', List.length_range]
    simp only [GroupConfig.build, hlists, List.zipIdx_nil, List.map_nil, List.length_nil,
      List.range_zero, ite_self]
  rw [GroupConfig.discoverTopology]
  split
  next hnone => exact absurd hnone hnodes
  next => rw [← hstart, hloop]; rfl

theorem mem_ofNode {l : List (Nat × Nat)} {n i : Nat} :
    i ∈ ofNode l n ↔ (l[i]?).map Prod.fst = some n := by
  rw [ofNode, List.mem_filter, List.mem_range, beq_iff_eq]
  constructor
  · rintro ⟨-, h⟩
    exact h
  · intro h
    refine ⟨?_, h⟩
    obtain ⟨x, hx, -⟩ := Option.map_eq_some_iff.mp h
    exact (List.getElem?_eq_some_iff.mp hx).1

theorem length_ofNode (l : List (Nat × Nat)) (n : Nat) :
    (ofNode l n).length = (l.map Prod.fst).count n := by
  induction l using List.reverseRecOn with
  | nil => rfl
  | append_singleton l x ih =>
    obtain ⟨m, w⟩ := x
    rw [ofNode_snoc, List.map_append, List.count_append, ← ih, List.map_singleton,
      List.count_singleton]
    by_cases hm : m = n
    · subst hm
      rw [if_pos rfl, if_pos (beq_self_eq_true m), List.length_append, List.length_singleton]
    · rw [if_neg hm, if_neg (by simpa using hm), Nat.add_zero]

theorem nodes_workers (l : List (Nat × Nat)) :
    (cfg.build topo l).workers.map GroupWorker.node = l.map Prod.fst := by
  rw [GroupConfig.build, List.map_map]
  conv_rhs => rw [← List.zipIdx_map_fst 0 l, List.map_map]
  rfl

/-- There is a list for each node that has workers. -/
theorem getD_lists {counts : List Nat} (hlen : counts.length ≤ topo.numaCount) (n : Nat) :
    (cfg.build topo (places counts)).numaWorkerLists.getD n [] = ofNode (places counts) n := by
  show ((List.range topo.numaCount).map (ofNode (places counts))).getD n [] = _
  rw [List.getD_eq_getElem?_getD, List.getElem?_map]
  by_cases hn : n < topo.numaCount
  · rw [List.getElem?_range hn]
    rfl
  · have hnil : ofNode (places counts) n = [] := by
      refine List.length_eq_zero_iff.mp ?_
      rw [length_ofNode, count_places, List.getD_eq_getElem?_getD, List.getElem?_eq_none (by omega)]
      rfl
    rw [List.getElem?_eq_none (by rw [List.length_range]; omega), hnil]
    rfl

end Group

/-! ## The placement adds up -/

/-- **The placement adds up**, on every topology with at least one node.

    For `num_workers` ≥ 1 and both distributions of `WorkStealingExecutor`, if the products of
    workers and cores do not overflow, and for `OnlineWorkerGroup` with automatic discovery:
    the counts of the nodes add up to `num_workers` and what the last node of the proportional
    distribution gets is not negative; the workers get the numbers from 0 to
    `num_workers - 1`, once each; each node has as many workers as it counts.  With NUMA-aware
    stealing the peers of a worker are the other workers of its node; and in the group the list
    of a node holds the workers of this node, once each. -/
theorem placement_adds_up (topo : Topology) (hnodes : topo.nodes ≠ []) :
    (∀ cfg : ExecutorConfig, 1 ≤ cfg.numWorkers →
      (∀ phys ∈ topo.physPerNuma, cfg.numWorkers * phys < 2 ^ 64) →
      AddsUp topo (cfg.counts topo).1 cfg.numWorkers ∧
      (cfg.make topo).workers.map WorkerState.id = List.range cfg.numWorkers ∧
      (cfg.make topo).workerNumaNode = (cfg.make topo).workers.map WorkerState.numaNode ∧
      (∀ n, (cfg.make topo).workerNumaNode.count n = (cfg.counts topo).1.getD n 0) ∧
      (cfg.numaAwareStealing = true → ∀ i j, j ∈ (cfg.make topo).numaPeers.getD i [] ↔
        i ≠ j ∧ ∃ v w, (cfg.make topo).workers[i]? = some v ∧
          (cfg.make topo).workers[j]? = some w ∧ v.numaNode = w.numaNode)) ∧
    (∀ cfg : GroupConfig, cfg.autoDiscoverNuma = true → cfg.perNumaWorkers = [] →
      1 ≤ cfg.numWorkers → ∃ g, cfg.discoverTopology topo = some g ∧
        AddsUp topo (cfg.counts topo) cfg.numWorkers ∧
        g.workers.length = cfg.numWorkers ∧ g.workerRanks = List.range cfg.numWorkers ∧
        ∀ n, (g.numaWorkerLists.getD n []).Nodup ∧
          (g.numaWorkerLists.getD n []).length = (cfg.counts topo).getD n 0 ∧
          ∀ i, i ∈ g.numaWorkerLists.getD n [] ↔ ∃ w, g.workers[i]? = some w ∧ w.node = n) := by
  constructor
  · intro cfg hone hprod
    obtain ⟨hadds, htotal⟩ := counts_addUp cfg hone hprod
    have hmake := make_eq cfg topo (by rw [hadds.sum, htotal])
    have hworkers : (cfg.make topo).workers =
        (cfg.build topo (places (cfg.counts topo).1)).workers := by rw [hmake]
    have hnumaNode : (cfg.make topo).workerNumaNode =
        (places (cfg.counts topo).1).map Prod.fst := by rw [hmake]; rfl
    have hboth : (cfg.make topo).workerNumaNode =
        (cfg.make topo).workers.map WorkerState.numaNode := by
      rw [hnumaNode, hworkers, nodes_build]
    refine ⟨hadds, ?_, hboth, ?_, ?_⟩
    · rw [hworkers, ids_build, length_places, hadds.sum]
    · intro n
      rw [hnumaNode, count_places]
    · intro haware i j
      have hpeers : (cfg.make topo).numaPeers = cfg.peers (cfg.make topo).workerNumaNode := rfl
      rw [hpeers, mem_peers cfg haware, hboth, List.getElem?_map, List.getElem?_map]
      simp only [Option.map_eq_some_iff]
      constructor
      · rintro ⟨hne, n, ⟨v, hv, rfl⟩, w, hw, hsame⟩
        exact ⟨hne, v, w, hv, hw, hsame.symm⟩
      · rintro ⟨hne, v, w, hv, hw, hsame⟩
        exact ⟨hne, v.numaNode, ⟨v, hv, rfl⟩, w, hw, hsame.symm⟩
  · intro cfg _ hmanual hone
    have hcounts : cfg.counts topo = evenShares cfg.numWorkers topo.numaCount := by
      rw [GroupConfig.counts, if_pos hmanual, if_neg (Nat.ne_of_gt hone)]
    have hadds : AddsUp topo (cfg.counts topo) cfg.numWorkers := by
      rw [hcounts]
      exact even_addsUp cfg.numWorkers
    have hlen : (places (cfg.counts topo)).length = cfg.numWorkers := by
      rw [length_places, hadds.sum]
    refine ⟨_, discover_eq cfg topo hnodes, hadds, ?_, ?_, ?_⟩
    · rw [length_workers, hlen]
    · show List.range (places (cfg.counts topo)).length = _
      rw [hlen]
    · intro n
      rw [getD_lists cfg topo (Nat.le_of_eq hadds.nodes)]
      refine ⟨List.nodup_range.filter _, ?_, ?_⟩
      · rw [length_ofNode, count_places]
      · intro i
        rw [mem_ofNode, ← List.getElem?_map, ← nodes_workers cfg topo, List.getElem?_map,
          Option.map_eq_some_iff]

/-- Three nodes with two, no and four cores; the first unit has a sibling. -/
def threeNodes : Topology where
  nodes := [⟨[⟨0, true⟩, ⟨7, false⟩, ⟨1, true⟩], by decide⟩, ⟨[], by decide⟩,
    ⟨[⟨2, true⟩, ⟨3, true⟩, ⟨4, true⟩, ⟨5, true⟩], by decide⟩]
  few := by decide

/-- Five workers in proportion to the cores: one, none and four. -/
theorem placement_three_nodes : ∃ cfg : ExecutorConfig, (cfg.counts threeNodes).1 = [1, 0, 4] ∧
      AddsUp threeNodes (cfg.counts threeNodes).1 5 ∧
      (cfg.make threeNodes).workers.map WorkerState.id = [0, 1, 2, 3, 4] ∧
      (cfg.make threeNodes).workers.map WorkerState.numaNode = [0, 2, 2, 2, 2] ∧
      (cfg.make threeNodes).numaPeers.getD 3 [] = [1, 2, 4] := by
  obtain ⟨hadds, hids, -⟩ := (placement_adds_up threeNodes (by decide)).1
    ⟨5, true, true, false, by decide⟩ (by decide) (by decide)
  exact ⟨_, by decide, hadds, hids, by decide⟩

end Placement
