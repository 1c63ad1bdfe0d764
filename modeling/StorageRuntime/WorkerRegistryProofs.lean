import StorageRuntime.InterleavingProofs
import StorageRuntime.TableProofs

/-!
# WorkerRegistry — which worker an id denotes

The model of `runtime/worker_registry.cc` with its callers: the constructors of
`OnlineWorkerGroup` (`online_group.cc`), which register their workers under 0, 1, …, the
constructor of `WorkStealingExecutor`, which takes ids from the counter, and the
destructors of both.  The group's destructor does not touch the registry.

* **`lookups_denote_live`**: as long as no id is given out while a live worker has it, an
  executor's worker is registered once, and a group is destroyed only when its workers are
  not registered, the ids of the live workers denote them, the two lookups of executors
  are inverse, and no lookup gives a destroyed worker.

`misdirected_lookups` shows what happens otherwise.  Workers and executors are their
addresses; the address of a destroyed one can be used again.
-/

namespace WorkerRegistry

open Function Interleaving Table

/-! ## The registry -/

inductive WorkerHandle (W E : Type) where
  | online (worker : W)
  | offline (exec : E) (localId : Nat)
  deriving DecidableEq

structure Registry (W E : Type) where
  all : List (Option W)
  byNuma : List (List W)
  handles : List (Option (WorkerHandle W E))
  offlineByNuma : List (List Nat)
  offlineGlobalId : List ((E × Nat) × Nat)
  nextGlobalId : Nat

section Registry

variable {W E : Type}

def Registry.empty : Registry W E := ⟨[], [], [], [], [], 0⟩

def Registry.registerWorker (r : Registry W E) (w : W) (globalId numaNode : Nat) : Registry W E :=
  { r with
    all := put r.all globalId none (some w)
    byNuma := modify r.byNuma numaNode [] (· ++ [w])
    handles := put r.handles globalId none (some (.online w)) }

def Registry.registerOnlineWorker (r : Registry W E) (w : W) (numaNode : Nat) :
    Nat × Registry W E :=
  let gid := r.nextGlobalId
  (gid, { r with nextGlobalId := gid + 1 }.registerWorker w gid numaNode)

variable [DecidableEq E]

def Registry.registerOfflineWorker (r : Registry W E) (exec : E) (localId numaNode : Nat) :
    Nat × Registry W E :=
  let gid := r.nextGlobalId
  (gid, { r with
    nextGlobalId := gid + 1
    handles := put r.handles gid none (some (.offline exec localId))
    offlineByNuma := modify r.offlineByNuma numaNode [] (· ++ [gid])
    offlineGlobalId := assign r.offlineGlobalId (exec, localId) gid })

/-- Erase `gid` from the first list that has it. -/
def eraseFirst (gid : Nat) : List (List Nat) → List (List Nat)
  | [] => []
  | v :: vs => if gid ∈ v then v.erase gid :: vs else v :: eraseFirst gid vs

/-- The ids of an executor's workers. -/
def Registry.idsOf (r : Registry W E) (exec : E) : List Nat :=
  (r.offlineGlobalId.filter fun e => e.1.1 = exec).map Prod.snd

def Registry.removeExecutor (r : Registry W E) (exec : E) : Registry W E :=
  { r with
    handles := clearAll none (r.idsOf exec) r.handles
    offlineByNuma := (r.idsOf exec).foldl (fun vs gid => eraseFirst gid vs) r.offlineByNuma
    offlineGlobalId := r.offlineGlobalId.filter fun e => e.1.1 ≠ exec }

def Registry.getById (r : Registry W E) (globalId : Nat) : Option W := r.all.getD globalId none

def Registry.getByNuma (r : Registry W E) (numaNode : Nat) : List W := r.byNuma.getD numaNode []

/-- `pick` is the index that the random distribution gives. -/
def Registry.getRandomFromNuma (r : Registry W E) (numaNode pick : Nat) : Option W :=
  (r.getByNuma numaNode)[pick]?

def Registry.getHandle (r : Registry W E) (globalId : Nat) : Option (WorkerHandle W E) :=
  r.handles.getD globalId none

/-- `none` is `SIZE_MAX`. -/
def Registry.getGlobalIdForOffline (r : Registry W E) (exec : E) (localId : Nat) : Option Nat :=
  r.offlineGlobalId.lookup (exec, localId)

end Registry

/-! ## Groups and executors -/

/-- The workers that the constructor of a group makes: one after the other, or a number of
    them for each NUMA node. -/
inductive Layout (W : Type) where
  | legacy (workers : List W)
  | numa (nodes : List (List W))

/-- The workers in the order they are made, with their nodes. -/
def Layout.placed {W : Type} : Layout W → List (W × Nat)
  | .legacy workers => workers.map fun w => (w, 0)
  | .numa nodes => nodes.zipIdx.flatMap fun p => p.1.map fun w => (w, p.2)

/-- The registry, the groups and the executors that are alive, and, with its id, each
    registration of a worker that is alive. -/
structure State (G W E : Type) where
  registry : Registry W E
  groups : List (G × List W)
  executors : List E
  registered : List (WorkerHandle W E × Nat)

inductive Act (G W E : Type) where
  | constructGroup (g : G) (registerGlobal : Bool) (layout : Layout W)
  | registerOnlineWorker (w : W) (numaNode : Nat)
  | constructExecutor (exec : E) (numaNodes : List Nat)
  | registerOfflineWorker (exec : E) (localId numaNode : Nat)
  | destroyGroup (g : G)
  | destroyExecutor (exec : E)

section Machine

variable {G W E : Type}

def init : State G W E := ⟨Registry.empty, [], [], []⟩

/-- The worker has been made and is not destroyed. -/
def State.Live (s : State G W E) : WorkerHandle W E → Prop
  | .online w => ∃ p ∈ s.groups, w ∈ p.2
  | .offline e _ => e ∈ s.executors

def State.registerWorker (s : State G W E) (w : W) (globalId numaNode : Nat) : State G W E :=
  { s with
    registry := s.registry.registerWorker w globalId numaNode
    registered := (.online w, globalId) :: s.registered }

/-- The loop of a group's constructor. -/
def State.registerAll (s : State G W E) (globalId : Nat) : List (W × Nat) → State G W E
  | [] => s
  | (w, n) :: rest => (s.registerWorker w globalId n).registerAll (globalId + 1) rest

def State.registerOnlineWorker (s : State G W E) (w : W) (numaNode : Nat) : State G W E :=
  let (gid, r) := s.registry.registerOnlineWorker w numaNode
  { s with registry := r, registered := (.online w, gid) :: s.registered }

variable [DecidableEq W] [DecidableEq E]

instance (s : State G W E) (x : WorkerHandle W E) : Decidable (s.Live x) :=
  match x with
  | .online w => inferInstanceAs (Decidable (∃ p ∈ s.groups, w ∈ p.2))
  | .offline e _ => inferInstanceAs (Decidable (e ∈ s.executors))

def State.registerOfflineWorker (s : State G W E) (exec : E) (localId numaNode : Nat) :
    State G W E :=
  let (gid, r) := s.registry.registerOfflineWorker exec localId numaNode
  { s with registry := r, registered := (.offline exec localId, gid) :: s.registered }

/-- The loop of an executor's constructor. -/
def State.registerExecutor (s : State G W E) (exec : E) (localId : Nat) :
    List Nat → State G W E
  | [] => s
  | n :: rest => (s.registerOfflineWorker exec localId n).registerExecutor exec (localId + 1) rest

/-- Forget the registrations of destroyed workers. -/
def State.prune (s : State G W E) : State G W E :=
  { s with registered := s.registered.filter fun p => s.Live p.1 }

variable [DecidableEq G]

def step (s : State G W E) : Act G W E → Option (State G W E)
  | .constructGroup g registerGlobal layout =>
    let workers := layout.placed.map Prod.fst
    if (∀ p ∈ s.groups, p.1 ≠ g) ∧ workers.Nodup ∧ ∀ w ∈ workers, ¬ s.Live (.online w) then
      let made : State G W E := { s with groups := (g, workers) :: s.groups }
      some (if registerGlobal then made.registerAll 0 layout.placed else made)
    else none
  | .registerOnlineWorker w numaNode =>
    if s.Live (.online w) then some (s.registerOnlineWorker w numaNode) else none
  | .constructExecutor exec numaNodes =>
    if exec ∈ s.executors then none
    else some ({ s with executors := exec :: s.executors }.registerExecutor exec 0 numaNodes)
  | .registerOfflineWorker exec localId numaNode =>
    if exec ∈ s.executors then some (s.registerOfflineWorker exec localId numaNode) else none
  | .destroyGroup g =>
    if ∃ p ∈ s.groups, p.1 = g then
      some { s with groups := s.groups.filter fun p => p.1 ≠ g }.prune
    else none
  | .destroyExecutor exec =>
    if exec ∈ s.executors then
      some { s with
        registry := s.registry.removeExecutor exec
        executors := s.executors.filter fun e => e ≠ exec }.prune
    else none

def machine : Machine (State G W E) (Act G W E) Empty := ⟨step, fun _ _ => none⟩

end Machine

/-! ## What is asked of the lookups -/

section Lookups

variable {G W E : Type}

/-- Every live worker is found under its ids, an executor's worker under one only, and
    nothing else is found. -/
structure Denotes [DecidableEq E] (s : State G W E) : Prop where
  handle : ∀ x id, (x, id) ∈ s.registered → s.registry.getHandle id = some x
  inverse : ∀ e, e ∈ s.executors → ∀ i gid, s.registry.getGlobalIdForOffline e i = some gid ↔
    s.registry.getHandle gid = some (.offline e i)
  live_handle : ∀ id x, s.registry.getHandle id = some x → s.Live x
  live_id : ∀ id w, s.registry.getById id = some w → s.Live (.online w)
  live_numa : ∀ n w, w ∈ s.registry.getByNuma n → s.Live (.online w)
  live_random : ∀ n pick w, s.registry.getRandomFromNuma n pick = some w → s.Live (.online w)

/-- No live worker has one of the `n` ids from `k` on. -/
def State.Vacant (s : State G W E) (k n : Nat) : Prop :=
  ∀ p ∈ s.registered, p.2 < k ∨ k + n ≤ p.2
deriving Decidable

/-- The ids that are given out are vacant, an executor's worker is registered once, and the
    workers of a group that is destroyed are not registered. -/
def InOrder (_ : List Empty) (s : State G W E) : Act G W E → Prop
  | .constructGroup _ registerGlobal layout =>
    registerGlobal = true → s.Vacant 0 layout.placed.length
  | .registerOnlineWorker _ _ => s.Vacant s.registry.nextGlobalId 1
  | .constructExecutor _ numaNodes => s.Vacant s.registry.nextGlobalId numaNodes.length
  | .registerOfflineWorker exec localId _ =>
    s.Vacant s.registry.nextGlobalId 1 ∧ ∀ p ∈ s.registered, p.1 ≠ .offline exec localId
  | .destroyGroup g => ∀ q ∈ s.groups, q.1 = g → ∀ w ∈ q.2, ∀ p ∈ s.registered, p.1 ≠ .online w
  | .destroyExecutor _ => True

instance [DecidableEq G] [DecidableEq W] [DecidableEq E] (t : List Empty) (s : State G W E)
    (a : Act G W E) : Decidable (InOrder t s a) :=
  match a with
  | .constructGroup .. => inferInstanceAs (Decidable (_ = true → s.Vacant 0 _))
  | .registerOnlineWorker .. | .constructExecutor .. => inferInstanceAs (Decidable (s.Vacant _ _))
  | .registerOfflineWorker exec localId _ =>
    inferInstanceAs (Decidable (_ ∧ ∀ p ∈ s.registered, p.1 ≠ .offline exec localId))
  | .destroyGroup g =>
    inferInstanceAs (Decidable (∀ q ∈ s.groups, q.1 = g → ∀ w ∈ q.2, ∀ p ∈ s.registered, _ ≠ _))
  | .destroyExecutor .. => isTrue trivial

end Lookups

/-! ## The invariant -/

section Invariant

variable {G W E : Type}

/-- The tables hold the registrations of the live workers. -/
structure Inv (s : State G W E) : Prop where
  handle : ∀ id x, s.registry.getHandle id = some x ↔ (x, id) ∈ s.registered
  byId : ∀ id w, s.registry.getById id = some w ↔ (.online w, id) ∈ s.registered
  byNuma : ∀ n w, w ∈ s.registry.getByNuma n → ∃ id, (.online w, id) ∈ s.registered
  offline : ∀ e i gid, ((e, i), gid) ∈ s.registry.offlineGlobalId ↔
    (.offline e i, gid) ∈ s.registered
  keyed : Keyed s.registry.offlineGlobalId
  live : ∀ p ∈ s.registered, s.Live p.1

variable {s s' : State G W E}

theorem inv_init : Inv (init : State G W E) where
  handle := by simp [init, Registry.empty, Registry.getHandle]
  byId := by simp [init, Registry.empty, Registry.getById]
  byNuma := by simp [init, Registry.empty, Registry.getByNuma]
  offline := by simp [init, Registry.empty]
  keyed := List.nodup_nil
  live := by simp [init]

theorem Inv.denotes [DecidableEq E] (h : Inv s) : Denotes s where
  handle := fun x id hmem => (h.handle id x).mpr hmem
  inverse := by
    intro e _ i gid
    rw [Registry.getGlobalIdForOffline, h.keyed.lookup_eq_some, h.offline, h.handle]
  live_handle := fun id x hx => h.live _ ((h.handle id x).mp hx)
  live_id := fun id w hw => h.live _ ((h.byId id w).mp hw)
  live_numa := by
    intro n w hw
    obtain ⟨id, hmem⟩ := h.byNuma n w hw
    exact h.live _ hmem
  live_random := by
    intro n pick w hw
    obtain ⟨id, hmem⟩ := h.byNuma n w (List.mem_of_getElem? hw)
    exact h.live _ hmem

/-- Making workers and executors keeps the others alive. -/
theorem Inv.made (h : Inv s) (groups : List (G × List W)) (executors : List E)
    (hgroups : s.groups ⊆ groups) (hexecutors : s.executors ⊆ executors) :
    Inv { s with groups := groups, executors := executors } := by
  refine { h with live := ?_ }
  rintro ⟨x, id⟩ hp
  cases x with
  | online w =>
    obtain ⟨q, hq, hw⟩ := h.live _ hp
    exact ⟨q, hgroups hq, hw⟩
  | offline e i => exact hexecutors (h.live _ hp)

/-- A slot that nobody has is taken. -/
theorem taken_iff {X Y : Type} {f f' : Nat → Option Y} {registered : List (X × Nat)} {c : Y → X}
    {y : Y} {k : Nat} (hc : Injective c)
    (h : ∀ id y, f id = some y ↔ (c y, id) ∈ registered) (hvacant : ∀ p ∈ registered, p.2 ≠ k)
    (hput : ∀ id, f' id = if id = k then some y else f id) (id : Nat) (z : Y) :
    f' id = some z ↔ (c z, id) ∈ (c y, k) :: registered := by
  rw [hput, List.mem_cons, Prod.mk.injEq]
  rcases eq_or_ne id k with rfl | hne
  · rw [if_pos rfl, Option.some.injEq]
    constructor
    · rintro rfl
      exact .inl ⟨rfl, rfl⟩
    · rintro (⟨heq, -⟩ | hmem)
      · exact hc heq.symm
      · exact absurd rfl (hvacant _ hmem)
  · rw [if_neg hne, h]
    constructor
    · exact .inr
    · rintro (⟨-, heq⟩ | hmem)
      · exact absurd heq hne
      · exact hmem

theorem State.Vacant.ne {k n : Nat} (h : s.Vacant k n) {id : Nat} (hle : k ≤ id)
    (hlt : id < k + n) : ∀ p ∈ s.registered, p.2 ≠ id := by
  intro p hp heq
  have := h p hp
  omega

/-- An online worker is registered under an id that nobody has. -/
theorem Inv.registerWorker (h : Inv s) {w : W} {id : Nat} (numaNode : Nat)
    (hvacant : ∀ p ∈ s.registered, p.2 ≠ id) (hlive : s.Live (.online w)) :
    Inv (s.registerWorker w id numaNode) where
  handle := taken_iff injective_id h.handle hvacant fun _ => getD_put
  byId := taken_iff (c := WorkerHandle.online) (fun _ _ => WorkerHandle.online.inj) h.byId hvacant
    fun _ => getD_put
  byNuma := by
    intro n v hv
    have hv : v ∈ (modify s.registry.byNuma numaNode [] (· ++ [w])).getD n [] := hv
    rw [getD_modify] at hv
    split at hv
    · rcases List.mem_append.mp hv with hold | hnew
      · obtain ⟨id', hmem⟩ := h.byNuma _ v hold
        exact ⟨id', List.mem_cons_of_mem _ hmem⟩
      · obtain rfl := List.mem_singleton.mp hnew
        exact ⟨id, List.mem_cons_self⟩
    · obtain ⟨id', hmem⟩ := h.byNuma _ v hv
      exact ⟨id', List.mem_cons_of_mem _ hmem⟩
  offline := by
    intro e i gid
    show _ ↔ (WorkerHandle.offline e i, gid) ∈ (WorkerHandle.online w, id) :: s.registered
    rw [List.mem_cons, Prod.mk.injEq]
    exact (h.offline e i gid).trans ⟨.inr, fun hmem => hmem.elim (fun heq => nomatch heq.1) (·)⟩
  keyed := h.keyed
  live := List.forall_mem_cons.mpr ⟨hlive, h.live⟩

/-- A group registers its workers. -/
theorem Inv.registerAll (ws : List (W × Nat)) : ∀ {s : State G W E} {k : Nat}, Inv s →
    s.Vacant k ws.length → (∀ p ∈ ws, s.Live (.online p.1)) → Inv (s.registerAll k ws) := by
  induction ws with
  | nil => intro s k h _ _; exact h
  | cons p ws ih =>
    obtain ⟨w, n⟩ := p
    intro s k h hvacant hlive
    have hlen : ((w, n) :: ws).length = ws.length + 1 := rfl
    refine ih (h.registerWorker n (hvacant.ne (Nat.le_refl k) (by omega))
      (hlive _ List.mem_cons_self)) ?_ fun p hp => hlive p (List.mem_cons_of_mem _ hp)
    refine List.forall_mem_cons.mpr ⟨.inl (Nat.lt_succ_self k), fun p hp => ?_⟩
    have := hvacant p hp
    omega

variable [DecidableEq E]

/-- A worker of an executor is registered for the first time, and nobody has the id. -/
theorem Inv.registerOfflineWorker (h : Inv s) {e : E} {i : Nat} (numaNode : Nat)
    (hvacant : ∀ p ∈ s.registered, p.2 ≠ s.registry.nextGlobalId)
    (hfirst : ∀ p ∈ s.registered, p.1 ≠ .offline e i) (hlive : e ∈ s.executors) :
    Inv (s.registerOfflineWorker e i numaNode) where
  handle := taken_iff injective_id h.handle hvacant fun _ => getD_put
  byId := by
    intro id w
    show _ ↔ (WorkerHandle.online w, id) ∈ (WorkerHandle.offline e i, _) :: s.registered
    rw [List.mem_cons, Prod.mk.injEq]
    exact (h.byId id w).trans ⟨.inr, fun hmem => hmem.elim (fun heq => nomatch heq.1) (·)⟩
  byNuma := by
    intro n v hv
    obtain ⟨id, hmem⟩ := h.byNuma n v hv
    exact ⟨id, List.mem_cons_of_mem _ hmem⟩
  offline := by
    intro e' i' gid
    show ((e', i'), gid) ∈ assign s.registry.offlineGlobalId (e, i) s.registry.nextGlobalId ↔
      (WorkerHandle.offline e' i', gid) ∈
        (WorkerHandle.offline e i, s.registry.nextGlobalId) :: s.registered
    rw [mem_assign, h.offline, List.mem_cons, Prod.mk.injEq, Prod.mk.injEq,
      WorkerHandle.offline.injEq]
    constructor
    · rintro (hnew | ⟨-, hmem⟩)
      · exact .inl hnew
      · exact .inr hmem
    · rintro (hnew | hmem)
      · exact .inl hnew
      · refine .inr ⟨?_, hmem⟩
        rintro ⟨rfl, rfl⟩
        exact hfirst _ hmem rfl
  keyed := h.keyed.assign _ _
  live := List.forall_mem_cons.mpr ⟨hlive, h.live⟩

/-- A new executor registers its workers, none of which is known yet. -/
theorem Inv.registerExecutor {e : E} (ns : List Nat) : ∀ {s : State G W E} {i : Nat}, Inv s →
    s.Vacant s.registry.nextGlobalId ns.length →
    (∀ p ∈ s.registered, ∀ j, i ≤ j → p.1 ≠ .offline e j) → e ∈ s.executors →
    Inv (s.registerExecutor e i ns) := by
  induction ns with
  | nil => intro s i h _ _ _; exact h
  | cons n ns ih =>
    intro s i h hvacant hfirst hlive
    have hlen : (n :: ns).length = ns.length + 1 := rfl
    refine ih (h.registerOfflineWorker n (hvacant.ne (Nat.le_refl _) (by omega))
      (fun p hp => hfirst p hp i (Nat.le_refl i)) hlive) ?_ ?_ hlive
    · show ∀ p ∈ (WorkerHandle.offline e i, s.registry.nextGlobalId) :: s.registered,
        p.2 < s.registry.nextGlobalId + 1 ∨ s.registry.nextGlobalId + 1 + ns.length ≤ p.2
      refine List.forall_mem_cons.mpr ⟨.inl (Nat.lt_succ_self _), fun p hp => ?_⟩
      have := hvacant p hp
      omega
    · refine List.forall_mem_cons.mpr ⟨fun j hj heq => ?_, fun p hp j hj => ?_⟩
      · obtain ⟨-, rfl⟩ := WorkerHandle.offline.inj heq
        omega
      · exact hfirst p hp j (by omega)

variable [DecidableEq W]

/-- **Destroying an executor** takes out its workers and no others. -/
theorem Inv.removeExecutor (h : Inv s) (e : E) : Inv (State.prune { s with
      registry := s.registry.removeExecutor e
      executors := s.executors.filter fun x => x ≠ e }) := by
  -- the ids that are removed are those of the executor's workers
  have hids : ∀ gid, gid ∈ s.registry.idsOf e ↔ ∃ i, (.offline e i, gid) ∈ s.registered := by
    intro gid
    simp only [Registry.idsOf, List.mem_map, List.mem_filter, decide_eq_true_eq]
    constructor
    · rintro ⟨⟨⟨e', i⟩, gid'⟩, ⟨hmem, rfl⟩, rfl⟩
      exact ⟨i, (h.offline _ i _).mp hmem⟩
    · rintro ⟨i, hmem⟩
      exact ⟨((e, i), gid), ⟨(h.offline e i gid).mpr hmem, rfl⟩, rfl⟩
  -- a registered worker stays live unless it is one of them
  have hlive : ∀ p ∈ s.registered, State.Live { s with
      registry := s.registry.removeExecutor e
      executors := s.executors.filter fun x => x ≠ e } p.1 ↔ ∀ i, p.1 ≠ .offline e i := by
    rintro ⟨x, id⟩ hp
    cases x with
    | online w => exact iff_of_true (h.live _ hp) nofun
    | offline e' i =>
      have hin : e' ∈ s.executors := h.live _ hp
      show e' ∈ s.executors.filter (fun x => x ≠ e) ↔ _
      simp only [List.mem_filter, hin, true_and, decide_eq_true_eq, ne_eq,
        WorkerHandle.offline.injEq, not_and]
      exact ⟨fun hne i heq => absurd heq hne, fun hall heq => hall i heq rfl⟩
  have hmem : ∀ x id, (x, id) ∈ s.registered.filter (fun p => State.Live { s with
      registry := s.registry.removeExecutor e
      executors := s.executors.filter fun x => x ≠ e } p.1) ↔
      (x, id) ∈ s.registered ∧ ∀ i, x ≠ .offline e i := by
    intro x id
    rw [List.mem_filter, decide_eq_true_eq]
    exact and_congr_right fun hp => hlive _ hp
  refine ⟨?_, ?_, ?_, ?_, h.keyed.filter _, ?_⟩
  · intro id x
    show (clearAll none (s.registry.idsOf e) s.registry.handles).getD id none = some x ↔ _
    rw [getD_clearAll]
    refine Iff.trans ?_ (hmem x id).symm
    by_cases hid : id ∈ s.registry.idsOf e
    · rw [if_pos hid]
      obtain ⟨i, hown⟩ := (hids id).mp hid
      refine iff_of_false nofun fun ⟨hx, hne⟩ => hne i ?_
      exact Option.some.inj (((h.handle id x).mpr hx).symm.trans ((h.handle id _).mpr hown))
    · rw [if_neg hid]
      refine (h.handle id x).trans ⟨fun hx => ⟨hx, ?_⟩, And.left⟩
      rintro i rfl
      exact hid ((hids id).mpr ⟨i, hx⟩)
  · intro id w
    refine (h.byId id w).trans (Iff.trans ?_ (hmem _ id).symm)
    exact ⟨fun hw => ⟨hw, fun _ => nofun⟩, And.left⟩
  · intro n w hw
    obtain ⟨id, hmemw⟩ := h.byNuma n w hw
    exact ⟨id, (hmem _ id).mpr ⟨hmemw, nofun⟩⟩
  · intro e' i gid
    show ((e', i), gid) ∈ s.registry.offlineGlobalId.filter (fun p => p.1.1 ≠ e) ↔ _
    rw [List.mem_filter, h.offline, decide_eq_true_eq]
    refine Iff.trans (and_congr_right fun _ => ?_) (hmem _ gid).symm
    exact ⟨fun hne j heq => hne (WorkerHandle.offline.inj heq).1,
      fun hall heq => hall i (heq ▸ rfl)⟩
  · intro p hp
    exact of_decide_eq_true (List.mem_filter.mp hp).2

/-- Destroying a group whose workers are not registered changes no table. -/
theorem Inv.destroyGroup [DecidableEq G] (h : Inv s) {g : G}
    (hfree : ∀ q ∈ s.groups, q.1 = g → ∀ w ∈ q.2, ∀ p ∈ s.registered, p.1 ≠ .online w) :
    Inv (State.prune { s with groups := s.groups.filter fun p => p.1 ≠ g }) := by
  have hlive : ∀ p ∈ s.registered,
      State.Live { s with groups := s.groups.filter fun p => p.1 ≠ g } p.1 := by
    rintro ⟨x, id⟩ hp
    cases x with
    | online w =>
      obtain ⟨q, hq, hw⟩ := h.live _ hp
      refine ⟨q, List.mem_filter.mpr ⟨hq, decide_eq_true fun heq => ?_⟩, hw⟩
      exact hfree q hq heq w hw _ hp rfl
    | offline e i => exact h.live _ hp
  have hsame : s.registered.filter
      (fun p => State.Live { s with groups := s.groups.filter fun p => p.1 ≠ g } p.1) =
      s.registered := List.filter_eq_self.mpr fun p hp => decide_eq_true (hlive p hp)
  rw [State.prune, hsame]
  exact { h with live := hlive }

variable [DecidableEq G]

/-- **One step keeps the tables right** if it is in order. -/
theorem Inv.step (h : Inv s) {t : List Empty} (a : Act G W E) (hc : InOrder t s a)
    (hs : step s a = some s') : Inv s' := by
  simp only [WorkerRegistry.step] at hs
  cases a with
  | constructGroup g registerGlobal layout =>
    dsimp only at hs
    split at hs
    · cases hs
      have hmade := h.made ((g, layout.placed.map Prod.fst) :: s.groups) s.executors
        (List.subset_cons_self _ _) (.refl _)
      split
      · rename_i hglobal
        refine hmade.registerAll layout.placed ?_ fun p hp => ?_
        · exact hc hglobal
        · exact ⟨_, List.mem_cons_self, List.mem_map_of_mem hp⟩
      · exact hmade
    · cases hs
  | registerOnlineWorker w numaNode =>
    dsimp only at hs
    split at hs
    · rename_i hlive
      cases hs
      exact Inv.registerWorker (s := { s with
        registry := { s.registry with nextGlobalId := s.registry.nextGlobalId + 1 } })
        { h with } numaNode
        (hc.ne (Nat.le_refl _) (Nat.lt_succ_self _)) hlive
    · cases hs
  | constructExecutor e numaNodes =>
    dsimp only at hs
    split at hs
    · cases hs
    · rename_i hnew
      cases hs
      refine (h.made s.groups (e :: s.executors) (.refl _)
        (List.subset_cons_self _ _)).registerExecutor numaNodes hc ?_ List.mem_cons_self
      rintro ⟨x, id⟩ hp j - rfl
      exact hnew (h.live _ hp)
  | registerOfflineWorker e i numaNode =>
    dsimp only at hs
    split at hs
    · rename_i hlive
      cases hs
      exact h.registerOfflineWorker numaNode (hc.1.ne (Nat.le_refl _) (Nat.lt_succ_self _))
        hc.2 hlive
    · cases hs
  | destroyGroup g =>
    dsimp only at hs
    split at hs
    · cases hs
      exact h.destroyGroup hc
    · cases hs
  | destroyExecutor e =>
    dsimp only at hs
    split at hs
    · cases hs
      exact h.removeExecutor e
    · cases hs

/-- **Lookups denote live workers.**  In every sequence of constructions, registrations and
    destructions that is in order, the ids of the live workers denote them, the two lookups of
    executors are inverse, and no lookup gives a destroyed worker. -/
theorem lookups_denote_live {t : List Empty} (h : Exec machine InOrder init t s) : Denotes s :=
  Inv.denotes (h.invariant (fun _ s => Inv s) inv_init fun _ _ a _ hinv hc hs => hinv.step a hc hs)

end Invariant

/-! ## In and out of order -/

/-- An executor with two workers takes the ids 0 and 1 and is destroyed; a group with one worker
    and a second executor share the ids from 0 on. -/
def orderly : List (Act Nat Nat Nat) :=
  [.constructExecutor 0 [0, 0], .destroyExecutor 0, .constructGroup 0 true (.numa [[], [7]]),
    .constructExecutor 1 [1], .registerOnlineWorker 7 1]

theorem orderly_lookups : ∃ t, ∃ s : State Nat Nat Nat, Exec machine InOrder init t s ∧
    s.registered = [(.online 7, 3), (.offline 1 0, 2), (.online 7, 0)] ∧
    s.registry.getByNuma 1 = [7, 7] ∧ Denotes s := by
  have hexec : Exec machine InOrder (init : State Nat Nat Nat) _ _ :=
    exec_run orderly
  exact ⟨_, _, hexec, by decide +kernel, by decide +kernel, lookups_denote_live hexec⟩

/-- **Lookups that go wrong.**  The id of a group's worker denotes the worker of another group.
    The id of a group's worker denotes the worker of an executor, and nothing after the
    executor is destroyed.  After its group is destroyed, a worker is still found in every
    table.  After an executor is destroyed whose worker was registered again, a handle still
    leads to it. -/
theorem misdirected_lookups : (∃ t, ∃ s : State Nat Nat Nat, Exec machine Always init t s ∧
      (.online 7, 0) ∈ s.registered ∧ s.registry.getHandle 0 = some (.online 8)) ∧
    (∃ t, ∃ s : State Nat Nat Nat, Exec machine Always init t s ∧
      (.online 7, 0) ∈ s.registered ∧ s.registry.getHandle 0 = some (.offline 0 0)) ∧
    (∃ t, ∃ s : State Nat Nat Nat, Exec machine Always init t s ∧
      (.online 7, 0) ∈ s.registered ∧ s.registry.getHandle 0 = none) ∧
    (∃ t, ∃ s : State Nat Nat Nat, Exec machine Always init t s ∧ ¬ s.Live (.online 7) ∧
      s.registry.getHandle 0 = some (.online 7) ∧ s.registry.getById 0 = some 7 ∧
      s.registry.getByNuma 0 = [7] ∧ s.registry.getRandomFromNuma 0 0 = some 7) ∧
    (∃ t, ∃ s : State Nat Nat Nat, Exec machine Always init t s ∧ ¬ s.Live (.offline 0 0) ∧
      s.registry.getHandle 0 = some (.offline 0 0)) := by
  have hgroups : Exec machine Always (init : State Nat Nat Nat) _ _ :=
    exec_run [.constructGroup 0 true (.legacy [7]), .constructGroup 1 true (.legacy [8])]
  have hmixed : Exec machine Always (init : State Nat Nat Nat) _ _ :=
    exec_run [.constructGroup 0 true (.legacy [7]), .constructExecutor 0 [0]]
  have hremoved : Exec machine Always (init : State Nat Nat Nat) _ _ :=
    exec_run [.constructGroup 0 true (.legacy [7]), .constructExecutor 0 [0], .destroyExecutor 0]
  have hdestroyed : Exec machine Always (init : State Nat Nat Nat) _ _ :=
    exec_run [.constructGroup 0 true (.legacy [7]), .destroyGroup 0]
  have hagain : Exec machine Always (init : State Nat Nat Nat) _ _ :=
    exec_run [.constructExecutor 0 [0], .registerOfflineWorker 0 0 0, .destroyExecutor 0]
  exact ⟨⟨_, _, hgroups, by decide +kernel⟩, ⟨_, _, hmixed, by decide +kernel⟩,
    ⟨_, _, hremoved, by decide +kernel⟩,
    ⟨_, _, hdestroyed, by decide +kernel⟩,
    ⟨_, _, hagain, by decide +kernel⟩⟩

end WorkerRegistry
