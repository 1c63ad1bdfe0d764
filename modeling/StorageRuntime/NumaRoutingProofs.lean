import StorageRuntime.WorkerPlacementProofs
import StorageRuntime.WorkerRegistryProofs

/-!
# OnlineWorkerGroup — routing to the workers of a NUMA node

`runtime/online_group.cc`: a group keeps all its workers in `workers_` and, if it was laid
out over NUMA nodes, each node's workers in a list of their own.  `route_by_numa_hash`
gives a position in the node's list, but `worker` takes a position in `workers_`;
`submit_to_numa` asks the registry of the process for some worker of the node, whichever
group it belongs to.

**`numa_routing_in_group`**: both stay on the node and in the group if the group has no
workers on the nodes before it and only this group has ever registered workers of that
node.  Otherwise they do not (`numa_routing_astray`).
-/

namespace WorkerRegistry

open Interleaving Table

/-! ## Routing -/

section Routing

variable {W E : Type}

/-- `workers_`. -/
def Layout.workers (layout : Layout W) : List W := layout.placed.map Prod.fst

/-- `numa_worker_lists_`; only the layout over NUMA nodes fills it. -/
def Layout.numaWorkerLists : Layout W → List (List W)
  | .legacy _ => []
  | .numa nodes => nodes

def Layout.getNumaWorkers (layout : Layout W) (numaNode : Nat) : List W :=
  layout.numaWorkerLists.getD numaNode []

def Layout.routeByHash (layout : Layout W) (key : Nat) : Nat :=
  if layout.workers.length = 0 then 0 else key % layout.workers.length

/-- A node without workers falls back to the hash over all workers. -/
def Layout.routeByNumaHash (layout : Layout W) (key numaNode : Nat) : Nat :=
  if (layout.getNumaWorkers numaNode).length = 0 then layout.routeByHash key
  else key % (layout.getNumaWorkers numaNode).length

/-- `*workers_[index]`. -/
def Layout.worker (layout : Layout W) (index : Nat) : Option W := layout.workers[index]?

/-- The workers to whose engine queues `submit_to_numa` enqueues the item. -/
def submitToNuma (r : Registry W E) (numaNode pick : Nat) : List W :=
  (r.getRandomFromNuma numaNode pick).toList

end Routing

/-! ## What a layout places where -/

section Layout

variable {W : Type} {layout : Layout W} {n : Nat}

/-- The workers that a layout places on a node, as the registry is told. -/
def Layout.placedOn (layout : Layout W) (n : Nat) : List W :=
  (layout.placed.filter fun p => p.2 = n).map Prod.fst

theorem placedOn_zipIdx (nodes : List (List W)) : ∀ k,
    (((nodes.zipIdx k).flatMap fun p => p.1.map fun w => (w, p.2)).filter fun p => p.2 = n).map
      Prod.fst = if k ≤ n then nodes.getD (n - k) [] else [] := by
  induction nodes with
  | nil => simp
  | cons ws nodes ih =>
    intro k
    rw [List.zipIdx_cons, List.flatMap_cons, List.filter_append, List.map_append, ih]
    have hhead : ((ws.map fun w => (w, k)).filter fun p => p.2 = n).map Prod.fst =
        if k = n then ws else [] := by
      split
      next heq =>
        rw [List.filter_eq_self.mpr, List.map_map]
        · exact List.map_id ws
        · intro p hp
          obtain ⟨w, -, rfl⟩ := List.mem_map.mp hp
          exact decide_eq_true heq
      next hne =>
        rw [List.filter_eq_nil_iff.mpr, List.map_nil]
        intro p hp
        obtain ⟨w, -, rfl⟩ := List.mem_map.mp hp
        simpa using hne
    rw [hhead]
    rcases Nat.lt_trichotomy k n with hlt | rfl | hgt
    · rw [if_neg (Nat.ne_of_lt hlt), if_pos (Nat.succ_le_of_lt hlt), if_pos (Nat.le_of_lt hlt),
        show n - k = n - (k + 1) + 1 by omega, List.getD_cons_succ, List.nil_append]
    · rw [if_pos rfl, if_neg (Nat.not_succ_le_self k), if_pos (Nat.le_refl k), Nat.sub_self,
        List.getD_cons_zero, List.append_nil]
    · rw [if_neg (Nat.ne_of_gt hgt), if_neg (by omega), if_neg (Nat.not_le.mpr hgt),
        List.append_nil]

/-- A layout over NUMA nodes registers a node's workers under the node. -/
theorem placedOn_numa (nodes : List (List W)) (n : Nat) :
    (Layout.numa nodes).placedOn n = nodes.getD n [] := by
  have hplaced := placedOn_zipIdx (n := n) nodes 0
  rw [if_pos (Nat.zero_le n), Nat.sub_zero] at hplaced
  exact hplaced

/-- `workers_` are the nodes' workers one after the other. -/
theorem workers_numa (nodes : List (List W)) : (Layout.numa nodes).workers = nodes.flatten := by
  rw [Layout.workers, Layout.placed, List.map_flatMap, ← List.flatMap_id]
  have hfst : nodes = nodes.zipIdx.map Prod.fst := (List.zipIdx_map_fst 0 nodes).symm
  conv_rhs => rw [hfst]
  rw [List.flatMap_map]
  refine List.flatMap_congr fun p _ => ?_
  rw [List.map_map]
  exact List.map_id p.1

/-- A node behind nodes without workers is a front part of `workers_`. -/
theorem getElem?_workers (hfirst : ∀ m < n, layout.getNumaWorkers m = [])
    {i : Nat} (hi : i < (layout.getNumaWorkers n).length) :
    layout.workers[i]? = (layout.getNumaWorkers n)[i]? := by
  cases layout with
  | legacy workers => exact absurd hi (Nat.not_lt_zero _)
  | numa nodes =>
    rw [workers_numa]
    have hn : n < nodes.length := by
      by_contra hge
      rw [Layout.getNumaWorkers, Layout.numaWorkerLists,
        List.getD_eq_default _ _ (Nat.le_of_not_lt hge)] at hi
      exact Nat.not_lt_zero _ hi
    have hnode : nodes[n] = (Layout.numa nodes).getNumaWorkers n :=
      (List.getD_eq_getElem nodes [] hn).symm
    have hbefore : (nodes.take n).flatten = [] := by
      refine List.flatten_eq_nil_iff.mpr fun ws hws => ?_
      obtain ⟨m, hm, rfl⟩ := List.mem_take_iff_getElem.mp hws
      obtain ⟨hlt, hlen⟩ := Nat.lt_min.mp hm
      rw [← List.getD_eq_getElem nodes [] hlen]
      exact hfirst m hlt
    calc nodes.flatten[i]?
        = ((nodes.take n).flatten ++ (nodes.drop n).flatten)[i]? := by
          rw [← List.flatten_append, List.take_append_drop]
      _ = (nodes[n] ++ (nodes.drop (n + 1)).flatten)[i]? := by
          rw [hbefore, List.nil_append, List.drop_eq_getElem_cons hn, List.flatten_cons]
      _ = ((Layout.numa nodes).getNumaWorkers n)[i]? := by
          rw [hnode, List.getElem?_append_left hi]

end Layout

/-! ## The layout of a group

`Placement.Group` is the same group as `discover_topology` makes it, worker by worker. -/

section Discovered

open Placement (ofNode ofNode_snoc)

/-- The workers registered under a node, in the order of their creation. -/
theorem registered_on (l : List (Nat × Nat)) (n : Nat) :
    ((l.zipIdx.map fun x => (x.2, x.1.1)).filter fun p => p.2 = n).map Prod.fst = ofNode l n := by
  induction l using List.reverseRecOn with
  | nil => rfl
  | append_singleton l x ih =>
    obtain ⟨m, w⟩ := x
    rw [ofNode_snoc, ← ih, List.zipIdx_append, List.map_append, List.filter_append,
      List.map_append]
    by_cases hm : m = n
    · simp [hm]
    · simp [hm]

/-- **The group that `discover_topology` builds has the layout of its lists**: a node has the
    workers that are registered under it. -/
theorem placedOn_discovered {cfg : Placement.GroupConfig} {topo : Placement.Topology}
    {g : Placement.Group} (h : cfg.discoverTopology topo = some g)
    (hglobal : cfg.registerGlobal = true) (n : Nat) :
    (Layout.numa g.numaWorkerLists).placedOn n =
      (g.registered.filter fun p => p.2 = n).map Prod.fst := by
  have hnodes : topo.nodes ≠ [] := by
    intro hnil
    rw [Placement.GroupConfig.discoverTopology, hnil] at h
    cases h
  have hlen : (cfg.counts topo).length ≤ topo.numaCount := by
    have hcount : topo.nodes.length ≤ topo.numaCount := Nat.le_max_right ..
    rw [Placement.GroupConfig.counts, Placement.evenShares]
    split_ifs <;> simp <;> omega
  rw [Placement.discover_eq cfg topo hnodes] at h
  obtain rfl := Option.some.inj h
  rw [placedOn_numa, Placement.getD_lists cfg topo hlen, Placement.GroupConfig.build,
    if_pos hglobal, registered_on]

end Discovered

/-! ## What the registry has of a node -/

section Node

variable {G W E : Type} {s s' : State G W E} {n : Nat}

theorem getByNuma_registerWorker (w : W) (id m : Nat) :
    (s.registerWorker w id m).registry.getByNuma n =
      s.registry.getByNuma n ++ if m = n then [w] else [] := by
  show (modify s.registry.byNuma m [] (· ++ [w])).getD n [] = _
  rw [getD_modify]
  rcases eq_or_ne n m with rfl | hne
  · rw [if_pos rfl, if_pos rfl]
    rfl
  · rw [if_neg hne, if_neg (Ne.symm hne), List.append_nil]
    rfl

/-- The loop of a group's constructor appends the workers that are placed on the node. -/
theorem getByNuma_registerAll (ws : List (W × Nat)) : ∀ (s : State G W E) (id : Nat),
    (s.registerAll id ws).registry.getByNuma n =
      s.registry.getByNuma n ++ (ws.filter fun p => p.2 = n).map Prod.fst := by
  induction ws with
  | nil =>
    intro s id
    exact (List.append_nil _).symm
  | cons p ws ih =>
    obtain ⟨w, m⟩ := p
    intro s id
    rw [State.registerAll, ih, getByNuma_registerWorker, List.append_assoc, List.filter_cons]
    rcases eq_or_ne m n with rfl | hne
    · rw [if_pos rfl, if_pos (decide_eq_true rfl)]
      rfl
    · rw [if_neg hne, if_neg (by simpa using hne), List.nil_append]

theorem groups_registerAll (ws : List (W × Nat)) : ∀ (s : State G W E) (id : Nat),
    (s.registerAll id ws).groups = s.groups := by
  induction ws with
  | nil => exact fun s id => rfl
  | cons p ws ih => exact fun s id => ih _ _

variable [DecidableEq E]

theorem getByNuma_registerExecutor {e : E} (ns : List Nat) : ∀ (s : State G W E) (i : Nat),
    (s.registerExecutor e i ns).registry.getByNuma n = s.registry.getByNuma n := by
  induction ns with
  | nil => exact fun s i => rfl
  | cons m ns ih =>
    intro s i
    rw [State.registerExecutor, ih]
    rfl

theorem groups_registerExecutor {e : E} (ns : List Nat) : ∀ (s : State G W E) (i : Nat),
    (s.registerExecutor e i ns).groups = s.groups := by
  induction ns with
  | nil => exact fun s i => rfl
  | cons m ns ih => exact fun s i => ih _ _

end Node

section Sole

variable {G W E : Type} {s s' : State G W E} {g : G} {layout : Layout W} {n : Nat}

/-- The registry has on node `n` workers of the group only, and all of them while the group
    is alive. -/
structure Sole (g : G) (layout : Layout W) (n : Nat) (s : State G W E) : Prop where
  own : ∀ w ∈ s.registry.getByNuma n, w ∈ layout.placedOn n
  all : (∃ p ∈ s.groups, p.1 = g) → layout.placedOn n ⊆ s.registry.getByNuma n

/-- A step that leaves the node's list and does not make the group. -/
theorem Sole.keep (h : Sole g layout n s) (hnode : s'.registry.getByNuma n = s.registry.getByNuma n)
    (hgroups : ∀ p ∈ s'.groups, p ∈ s.groups ∨ p.1 ≠ g) : Sole g layout n s' := by
  refine ⟨?_, ?_⟩
  · rw [hnode]
    exact h.own
  · rintro ⟨p, hp, hg⟩
    rw [hnode]
    exact h.all ⟨p, (hgroups p hp).resolve_right (not_not_intro hg), hg⟩

end Sole

deriving instance DecidableEq for Layout

section Run

variable {G W E : Type} [DecidableEq G] [DecidableEq W] [DecidableEq E]
  {s s' : State G W E} {g : G} {layout : Layout W} {n : Nat} {t : List Empty}

/-- Group `g` is made with this layout and is registered; nothing else is registered on
    node `n`. -/
def SoleOn (g : G) (layout : Layout W) (n : Nat) (_ : List Empty) (_ : State G W E) :
    Act G W E → Prop
  | .constructGroup g' registerGlobal layout' =>
    if g' = g then registerGlobal = true ∧ layout' = layout
    else registerGlobal = true → layout'.placedOn n = []
  | .registerOnlineWorker _ m => m ≠ n
  | _ => True

instance (t : List Empty) (s : State G W E) (a : Act G W E) :
    Decidable (SoleOn g layout n t s a) :=
  match a with
  | .constructGroup g' registerGlobal _ =>
    inferInstanceAs (Decidable (if g' = g then _ ∧ _ else registerGlobal = true → _))
  | .registerOnlineWorker _ m => inferInstanceAs (Decidable (m ≠ n))
  | .constructExecutor .. | .registerOfflineWorker .. | .destroyGroup .. | .destroyExecutor .. =>
    isTrue trivial

theorem Sole.step (h : Sole g layout n s) {a : Act G W E} (hc : SoleOn g layout n t s a)
    (hs : WorkerRegistry.step s a = some s') : Sole g layout n s' := by
  simp only [WorkerRegistry.step] at hs
  cases a with
  | constructGroup g' registerGlobal layout' =>
    dsimp only at hs
    obtain ⟨-, rfl⟩ := Option.ite_some_none_eq_some.mp hs
    rw [SoleOn] at hc
    split at hc
    next heq =>
      -- the group itself
      obtain ⟨rfl, rfl⟩ := hc
      rw [if_pos rfl]
      refine ⟨?_, ?_⟩
      · intro w hw
        rw [getByNuma_registerAll] at hw
        rcases List.mem_append.mp hw with hold | hnew
        · exact h.own w hold
        · exact hnew
      · rintro -
        rw [getByNuma_registerAll]
        exact List.subset_append_right _ _
    next hne =>
      have hgroups : ∀ p ∈ (g', layout'.placed.map Prod.fst) :: s.groups,
          p ∈ s.groups ∨ p.1 ≠ g := by
        intro p hp
        rcases List.mem_cons.mp hp with rfl | hp
        · exact .inr hne
        · exact .inl hp
      cases registerGlobal with
      | false => exact h.keep rfl hgroups
      | true =>
        rw [if_pos rfl]
        refine h.keep ?_ ?_
        · rw [getByNuma_registerAll]
          refine Eq.trans ?_ (List.append_nil _)
          exact congrArg _ (hc rfl)
        · rw [groups_registerAll]
          exact hgroups
  | registerOnlineWorker w m =>
    dsimp only at hs
    obtain ⟨-, rfl⟩ := Option.ite_some_none_eq_some.mp hs
    refine h.keep ?_ fun p hp => .inl hp
    have hnode := getByNuma_registerWorker (n := n) (s := { s with
      registry := { s.registry with nextGlobalId := s.registry.nextGlobalId + 1 } }) w
      s.registry.nextGlobalId m
    rw [if_neg hc, List.append_nil] at hnode
    exact hnode
  | constructExecutor e ns =>
    dsimp only at hs
    split at hs
    next => cases hs
    next =>
      cases hs
      refine h.keep ?_ ?_
      · rw [getByNuma_registerExecutor]
      · rw [groups_registerExecutor]
        exact fun p hp => .inl hp
  | registerOfflineWorker e i m | destroyExecutor e =>
    dsimp only at hs
    obtain ⟨-, rfl⟩ := Option.ite_some_none_eq_some.mp hs
    exact h.keep rfl fun p hp => .inl hp
  | destroyGroup g' =>
    dsimp only at hs
    obtain ⟨-, rfl⟩ := Option.ite_some_none_eq_some.mp hs
    exact h.keep rfl fun p hp => .inl (List.mem_of_mem_filter hp)

/-- **NUMA routing stays on the node and in the group**, if the group has no workers on the
    nodes before this one and the registry has been given no other workers of this node: the
    hash leads to one of the node's workers, and an item is submitted to exactly one of
    them. -/
theorem numa_routing_in_group (h : Exec machine (SoleOn g layout n) (init : State G W E) t s)
    (hlive : ∃ p ∈ s.groups, p.1 = g) (hnode : layout.getNumaWorkers n ≠ [])
    (hfirst : ∀ m < n, layout.getNumaWorkers m = []) :
    (∀ key, ∃ w ∈ layout.getNumaWorkers n, layout.worker (layout.routeByNumaHash key n) = some w) ∧
      s.registry.getByNuma n ≠ [] ∧
      ∀ pick < (s.registry.getByNuma n).length,
        ∃ w ∈ layout.getNumaWorkers n, submitToNuma s.registry n pick = [w] := by
  have hplaced : layout.placedOn n = layout.getNumaWorkers n := by
    cases layout with
    | legacy workers => exact absurd rfl hnode
    | numa nodes => exact placedOn_numa nodes n
  have hinit : Sole g layout n (init : State G W E) :=
    ⟨fun w hw => absurd hw List.not_mem_nil, fun ⟨p, hp, _⟩ => absurd hp List.not_mem_nil⟩
  have hsole : Sole g layout n s := by
    refine h.invariant (fun _ s => Sole g layout n s) hinit ?_
    intro t s a s' hsole hc hs
    exact hsole.step hc hs
  have hlen : 0 < (layout.getNumaWorkers n).length := List.length_pos_of_ne_nil hnode
  refine ⟨fun key => ?_, ?_, fun pick hpick => ?_⟩
  · have hlt : key % (layout.getNumaWorkers n).length < (layout.getNumaWorkers n).length :=
      Nat.mod_lt _ hlen
    refine ⟨(layout.getNumaWorkers n)[key % (layout.getNumaWorkers n).length],
      List.getElem_mem hlt, ?_⟩
    rw [Layout.routeByNumaHash, if_neg (Nat.ne_of_gt hlen), Layout.worker,
      getElem?_workers hfirst hlt, List.getElem?_eq_getElem hlt]
  · intro hnil
    have hall := hsole.all hlive
    rw [hnil, hplaced] at hall
    exact hnode (List.subset_nil.mp hall)
  · refine ⟨(s.registry.getByNuma n)[pick], ?_, ?_⟩
    · rw [← hplaced]
      exact hsole.own _ (List.getElem_mem hpick)
    · rw [submitToNuma, Registry.getRandomFromNuma, List.getElem?_eq_getElem hpick]
      rfl

end Run

/-- A group on nodes 1 and 2, with an unregistered group and one on node 0 beside it. -/
theorem numa_routing_in_group_beside_others : ∃ t, ∃ s : State Nat Nat Nat,
    Exec machine (SoleOn 0 (.numa [[], [4, 5], [6]]) 1) init t s ∧
    s.registry.getByNuma 1 = [4, 5] ∧
    (∀ key, ∃ w ∈ [4, 5], (Layout.numa [[], [4, 5], [6]]).worker
      ((Layout.numa [[], [4, 5], [6]]).routeByNumaHash key 1) = some w) ∧
    ∀ pick < (s.registry.getByNuma 1).length,
      ∃ w ∈ [4, 5], submitToNuma s.registry 1 pick = [w] := by
  have hexec : Exec machine (SoleOn 0 (.numa [[], [4, 5], [6]]) 1) (init : State Nat Nat Nat) _ _ :=
    exec_run [.constructGroup 1 false (.numa [[1], [2]]), .constructGroup 2 true (.numa [[3], []]),
      .constructGroup 0 true (.numa [[], [4, 5], [6]])]
  obtain ⟨hroute, -, hsubmit⟩ := numa_routing_in_group hexec (by decide +kernel) (by decide)
    (by decide)
  exact ⟨_, _, hexec, by decide +kernel, hroute, hsubmit⟩

/-- **Routing that goes astray.**  The hash over the one worker of node 1 leads to the worker of
    node 0.  An item for a group's node goes to a worker of another group.  An item for a node
    of a group that is not registered goes nowhere. -/
theorem numa_routing_astray :
    ((Layout.numa [[1], [2]]).getNumaWorkers 1 = [2] ∧
      (Layout.numa [[1], [2]]).worker ((Layout.numa [[1], [2]]).routeByNumaHash 7 1) = some 1) ∧
    (∃ t, ∃ s : State Nat Nat Nat, Exec machine Always init t s ∧
      s.groups = [(1, [2]), (0, [1])] ∧ submitToNuma s.registry 0 1 = [2]) ∧
    ∃ t, ∃ s : State Nat Nat Nat, Exec machine Always init t s ∧
      s.groups = [(0, [1])] ∧ ∀ pick < 8, submitToNuma s.registry 0 pick = [] := by
  have hshared : Exec machine Always (init : State Nat Nat Nat) _ _ :=
    exec_run [.constructGroup 0 true (.numa [[1]]), .constructGroup 1 true (.numa [[2]])]
  have hunregistered : Exec machine Always (init : State Nat Nat Nat) _ _ :=
    exec_run [.constructGroup 0 false (.numa [[1]])]
  exact ⟨(by decide), ⟨_, _, hshared, by decide +kernel⟩,
    _, _, hunregistered, by decide +kernel⟩

end WorkerRegistry
