import Mathlib.Data.List.Perm.Subperm
import StorageRuntime.WorkStealingProofs

/-!
# StealPass — the victims of the steal phase of `runtime/work_stealing_executor.cc`

A worker that found no work of its own goes through a steal pass: up to
`steal_attempts` probes of other workers' rings, and then it idles.  The machine
`passes` takes the steps of the executor and makes the probes visible;
`failedPasses` lists what each failed pass of one worker probed.

The start of a pass is a hash of the worker's id, so it is the same in every
pass: every failed pass of a worker probes the same window of its peers, in the
same order (`failed_pass_eq`).
-/

namespace WorkStealing

open Function Interleaving WordArithmetic

/-- What is seen of the steal phase. -/
inductive StealEvent (n : Nat) where
  /-- Worker `w` found the global ring empty and begins a pass. -/
  | began (w : Fin n)
  /-- Worker `w` dequeues from the ring of worker `v`, which may be empty. -/
  | probed (w v : Fin n)
  /-- Worker `w` has made its attempts and goes to idle. -/
  | failed (w : Fin n)
deriving DecidableEq

section Passes

variable {n : Nat} {Ext T : Type} [DecidableEq Ext]

def stealEvent (cfg : Config n) (s : State n Ext T) : Act n Ext T → Option (StealEvent n)
  | .goWorker w =>
    match s.thread w with
    | .globalCheck => if s.globalEntry.isEmpty then some (.began w) else none
    | .steal i => some (match cfg.victim w i with
        | none => .failed w
        | some v => .probed w v)
    | _ => none
  | _ => none

/-- The executor, seen at its steal phases. -/
def passes (cfg : Config n) : Machine (State n Ext T) (Act n Ext T) (StealEvent n) where
  step := step cfg
  event := stealEvent cfg

/-- The victims of the pass that worker `w` is in and those of its failed passes, newest
    first. -/
def passLog (w : Fin n) : List (StealEvent n) → List (Fin n) × List (List (Fin n))
  | [] => ([], [])
  | .began u :: t => if u = w then ([], (passLog w t).2) else passLog w t
  | .probed u v :: t => if u = w then (v :: (passLog w t).1, (passLog w t).2) else passLog w t
  | .failed u :: t => if u = w then ([], (passLog w t).1 :: (passLog w t).2) else passLog w t

/-- The victims that each failed pass of worker `w` probed. -/
def failedPasses (w : Fin n) (t : List (StealEvent n)) : List (List (Fin n)) := (passLog w t).2

/-! ## The window of peers -/

/-- The victims of the first `i` attempts, the last one first. -/
def Config.window (cfg : Config n) (w : Fin n) (i : Nat) : List (Fin n) :=
  ((List.range i).filterMap (cfg.victim w)).reverse

variable {i : Nat} {w : Fin n} {cfg : Config n} {s s' : State n Ext T}

theorem Config.window_succ {v : Fin n} (hv : cfg.victim w i = some v) :
    cfg.window w (i + 1) = v :: cfg.window w i := by
  simp [Config.window, List.range_succ, hv]

theorem Config.mem_window {v : Fin n} : v ∈ cfg.window w i ↔ ∃ j < i, cfg.victim w j = some v := by
  simp [Config.window]

/-- Without peers there is no victim; with peers, attempts that are left have one. -/
theorem Config.victim_eq_none :
    cfg.victim w i = none ↔ cfg.stealAttempts ≤ i ∨ cfg.numaPeers w = [] := by
  unfold Config.victim
  split
  next hi =>
    rcases List.eq_nil_or_concat (cfg.numaPeers w) with hnil | ⟨l, x, hcons⟩
    · simp [hnil]
    · have hpos : 0 < (cfg.numaPeers w).length := by simp [hcons]
      have hne : cfg.numaPeers w ≠ [] := List.ne_nil_of_length_pos hpos
      have hlt := Nat.mod_lt (wadd (w.val * 2654435761 % wordSize % (cfg.numaPeers w).length) i)
        hpos
      simp only [List.getElem?_eq_none_iff, Nat.not_le.mpr hlt, hne, Nat.not_le.mpr hi, or_self]
  next hi => simp [Nat.not_lt.mp hi]

/-- The attempts of a pass that failed at attempt `i` are all of them. -/
theorem Config.window_of_failed (hnone : cfg.victim w i = none)
    (hsome : ∀ j < i, cfg.victim w j ≠ none) : cfg.window w i = cfg.window w cfg.stealAttempts := by
  rcases Config.victim_eq_none.mp hnone with hi | hnil
  · -- no attempt before `i` was past the last one
    have hle : i ≤ cfg.stealAttempts := by
      by_contra hgt
      exact hsome _ (Nat.not_le.mp hgt) (Config.victim_eq_none.mpr (.inl (Nat.le_refl _)))
    rw [Nat.le_antisymm hle hi]
  · have hall : ∀ j, cfg.victim w j = none := fun j => Config.victim_eq_none.mpr (.inr hnil)
    simp [Config.window, hall]

/-- With as many attempts as peers, one pass probes every peer. -/
theorem Config.peers_subset_window (hsize : (cfg.numaPeers w).length ≤ 2 ^ 63)
    (hcover : (cfg.numaPeers w).length ≤ cfg.stealAttempts) :
    ∀ v ∈ cfg.numaPeers w, v ∈ cfg.window w cfg.stealAttempts := by
  intro v hv
  obtain ⟨k, hk, rfl⟩ := List.getElem_of_mem hv
  set len := (cfg.numaPeers w).length with hlen
  set start := w.val * 2654435761 % wordSize % len with hstart
  have hpos : 0 < len := Nat.lt_of_le_of_lt (Nat.zero_le _) hk
  have hlt : start < len := Nat.mod_lt _ hpos
  have hj : (k + len - start) % len < len := Nat.mod_lt _ hpos
  -- the attempt that comes from the start round to `k`
  refine Config.mem_window.mpr ⟨(k + len - start) % len, Nat.lt_of_lt_of_le hj hcover, ?_⟩
  have hplain : wadd start ((k + len - start) % len) = start + (k + len - start) % len :=
    Nat.mod_eq_of_lt (by unfold wordSize; omega)
  have hround : (start + (k + len - start) % len) % len = k := by
    rw [Nat.add_mod_mod, Nat.add_sub_cancel' (by omega), Nat.add_mod_right, Nat.mod_eq_of_lt hk]
  simp only [Config.victim, ← hlen, ← hstart, hplain, hround, Nat.lt_of_lt_of_le hj hcover, if_true]
  exact List.getElem?_eq_getElem hk

/-- With fewer attempts than peers, no pass probes them all. -/
theorem Config.peer_outside_window (hnodup : (cfg.numaPeers w).Nodup)
    (hfew : cfg.stealAttempts < (cfg.numaPeers w).length) :
    ∃ v ∈ cfg.numaPeers w, v ∉ cfg.window w cfg.stealAttempts := by
  by_contra hall
  push Not at hall
  have hperm : List.Subperm (cfg.numaPeers w) (cfg.window w cfg.stealAttempts) :=
    hnodup.subperm hall
  have hle : (cfg.window w cfg.stealAttempts).length ≤ cfg.stealAttempts := by
    simpa [Config.window] using
      List.length_filterMap_le (cfg.victim w) (List.range cfg.stealAttempts)
  exact absurd (hperm.length_le.trans hle) (Nat.not_le.mpr hfew)

/-! ## What a run probes -/

omit [DecidableEq Ext] in
/-- A step of the steal phase: where the worker is then. -/
theorem goWorker_steal (hp : s.thread w = .steal i) (h : s.goWorker cfg w = some s') :
    (cfg.victim w i = none ∧ s'.thread w = .idle .enterTest) ∨ ∃ v, cfg.victim w i = some v ∧
        (s'.thread w = .steal (i + 1) ∨ ∃ item, s'.thread w = .executing item) := by
  simp only [State.goWorker, hp] at h
  split at h
  next hv =>
    cases h
    exact .inl ⟨hv, by simp [State.setThread]⟩
  next v hv =>
    refine .inr ⟨v, hv, ?_⟩
    split at h <;> cases h <;> simp [State.setThread]

omit [DecidableEq Ext] in
/-- Only a worker's own steps take it into the steal phase, and from one place. -/
theorem WorkerMove.steal_of {u : Fin n} (hm : WorkerMove cfg s u (s.thread u) s')
    (hs' : s'.thread w = .steal i) : (u ≠ w ∧ s.thread w = .steal i) ∨
      (u = w ∧ ((s.thread w = .globalCheck ∧ s.globalEntry = [] ∧ i = 0) ∨
        ∃ j, s.thread w = .steal j)) := by
  rcases eq_or_ne u w with rfl | hne
  · refine .inr ⟨rfl, ?_⟩
    generalize hp : s.thread u = p at hm
    cases hm <;> simp only [State.setThread, update_self] at hs'
    case noGlobal hq => exact .inl ⟨rfl, hq, (WorkerPc.steal.inj hs').symm⟩
    case steals j v item rest hq => exact .inr ⟨j, rfl⟩
    case misses j => exact .inr ⟨j, rfl⟩
    case gives j hv => exact .inr ⟨j, rfl⟩
    case idles => split at hs' <;> cases hs'
    all_goals cases hs'
  · refine .inl ⟨hne, ?_⟩
    generalize s.thread u = p at hm
    cases hm <;> simpa [State.setThread, update_of_ne hne.symm] using hs'

omit [DecidableEq Ext] in
/-- Moving a thread elsewhere than into the steal phase takes no worker there. -/
theorem steal_of_setThread {u : Fin n} {p : WorkerPc T} (hp : p = .steal i → s.thread u = .steal i)
    (h : (s.setThread u p).thread w = .steal i) : s.thread w = .steal i := by
  rcases eq_or_ne w u with rfl | hne
  · simp only [State.setThread, update_self] at h
    exact hp h
  · simpa only [State.setThread, update_of_ne hne] using h

/-- No step of a call or of another kind takes a worker into the steal phase. -/
theorem StepMove.steal_of {act : Act n Ext T} (hm : StepMove cfg s act s')
    (hs' : s'.thread w = .steal i) (hact : ∀ u, act ≠ .goWorker u) : s.thread w = .steal i := by
  have wake {p : WorkerPc T} (h : p.wake = .steal i) : p = .steal i := by
    cases p with
    | idle p => cases h
    | _ => exact h
  cases hm with
  | begins | ignored | yields => exact hs'
  | finishes u => exact steal_of_setThread (fun h => by cases h) hs'
  | calls room counter hc =>
    generalize s.call _ = c at hc
    cases hc with
    | enqueued q => cases q <;> exact hs'
    | woken => exact steal_of_setThread wake hs'
    | startCreate | joined => exact steal_of_setThread (fun h => by cases h) hs'
    | _ => exact hs'
  | works => exact absurd rfl (hact _)
  | wakes => exact steal_of_setThread wake hs'

/-- What the log of worker `w` says: inside a pass, the victims of the attempts so far; of
    every failed pass, all of its window. -/
structure Logged (cfg : Config n) (w : Fin n) (t : List (StealEvent n)) (s : State n Ext T) :
    Prop where
  pass : ∀ i, s.thread w = .steal i →
    (passLog w t).1 = cfg.window w i ∧ ∀ j < i, cfg.victim w j ≠ none
  failed : ∀ p ∈ failedPasses w t, p = cfg.window w cfg.stealAttempts

variable {cfg : Config n} {w : Fin n} {t : List (StealEvent n)} {s s' : State n Ext T}

omit [DecidableEq Ext] in
theorem Logged.works (h : Logged cfg w t s) {u : Fin n} (hgo : s.goWorker cfg u = some s') :
    Logged cfg w (note t (stealEvent cfg s (.goWorker u))) s' := by
  have hm := goWorker_moves hgo
  rcases eq_or_ne u w with rfl | hne
  · cases hp : s.thread u with
    | steal i =>
      obtain ⟨hpass, hsome⟩ := h.pass i hp
      rcases goWorker_steal hp hgo with ⟨hv, hidle⟩ | ⟨v, hv, hthen⟩
      · -- the pass has failed
        simp only [stealEvent, hp, hv, note]
        refine ⟨fun j hj => (by rw [hidle] at hj; cases hj), fun p hmem => ?_⟩
        simp only [failedPasses, passLog, if_true, List.mem_cons] at hmem
        rcases hmem with rfl | hmem
        · rw [hpass, Config.window_of_failed hv hsome]
        · exact h.failed p hmem
      · simp only [stealEvent, hp, hv, note]
        refine ⟨fun j hj => ?_, fun p hmem => h.failed p (by simpa [failedPasses, passLog]
          using hmem)⟩
        rcases hthen with hnext | ⟨item, hexec⟩
        · obtain rfl := WorkerPc.steal.inj (hnext.symm.trans hj)
          refine ⟨by simp [passLog, hpass, Config.window_succ hv], fun k hk => ?_⟩
          rcases Nat.lt_succ_iff_lt_or_eq.mp hk with hlt | rfl
          · exact hsome k hlt
          · simp [hv]
        · rw [hexec] at hj
          cases hj
    | globalCheck =>
      simp only [stealEvent, hp]
      split
      next =>
        refine ⟨fun j hj => ?_, fun p hmem => h.failed p (by simpa [failedPasses, passLog,
          note] using hmem)⟩
        rcases hm.steal_of hj with ⟨hne, -⟩ | ⟨-, ⟨-, -, rfl⟩ | ⟨i, hi⟩⟩
        · exact absurd rfl hne
        · refine ⟨by simp [passLog, note, Config.window], fun k hk => ?_⟩
          exact absurd hk (Nat.not_lt_zero k)
        · cases hp.symm.trans hi
      next hfull =>
        refine ⟨fun j hj => ?_, h.failed⟩
        rcases hm.steal_of hj with ⟨hne, -⟩ | ⟨-, ⟨-, hempty, -⟩ | ⟨i, hi⟩⟩
        · exact absurd rfl hne
        · simp [hempty] at hfull
        · cases hp.symm.trans hi
    | _ =>
      simp only [stealEvent, hp, note]
      refine ⟨fun j hj => ?_, h.failed⟩
      rcases hm.steal_of hj with ⟨hne, -⟩ | ⟨-, ⟨hg, -⟩ | ⟨i, hi⟩⟩
      · exact absurd rfl hne
      · cases hp.symm.trans hg
      · cases hp.symm.trans hi
  · -- another worker's probes are not in the log
    have hlog : passLog w (note t (stealEvent cfg s (.goWorker u))) = passLog w t := by
      simp only [stealEvent]
      split
      next => split <;> simp [note, passLog, hne]
      next => split <;> simp [note, passLog, hne]
      next => rfl
    refine ⟨fun j hj => ?_, by rw [failedPasses, hlog]; exact h.failed⟩
    rcases hm.steal_of hj with ⟨-, hold⟩ | ⟨heq, -⟩
    · rw [hlog]
      exact h.pass j hold
    · exact absurd heq hne

/-- What the log of every worker says, after every run. -/
theorem logged_exec (hrun : Exec (passes cfg) Always (init n Ext T) t s) : Logged cfg w t s := by
  refine hrun.invariant (Logged cfg w) ?_ ?_
  · exact ⟨fun i hi => (by cases hi), fun _ h => absurd h List.not_mem_nil⟩
  intro t s act s' h _ hstep
  have hm : StepMove cfg s act s' := step_moves hstep
  cases act with
  | goWorker u => exact h.works hstep
  | _ => exact ⟨fun i hi => h.pass i (hm.steal_of hi (fun u hu => by cases hu)), h.failed⟩

/-- Every failed pass of a worker probes the same victims. -/
theorem failed_pass_eq (hrun : Exec (passes cfg) Always (init n Ext T) t s) :
    ∀ p ∈ failedPasses w t, p = cfg.window w cfg.stealAttempts :=
  (logged_exec hrun).failed

/-- With fewer attempts than peers, some peer is probed in no failed pass of any run. -/
theorem peer_never_probed (Ext T : Type) [DecidableEq Ext] (hnodup : (cfg.numaPeers w).Nodup)
    (hfew : cfg.stealAttempts < (cfg.numaPeers w).length) :
    ∃ v ∈ cfg.numaPeers w, ∀ (t : List (StealEvent n)) (s : State n Ext T),
      Exec (passes cfg) Always (init n Ext T) t s → ∀ p ∈ failedPasses w t, v ∉ p := by
  obtain ⟨v, hv, hout⟩ := Config.peer_outside_window hnodup hfew
  refine ⟨v, hv, fun t s hrun p hp => ?_⟩
  rw [failed_pass_eq hrun p hp]
  exact hout

/-- **Every peer is probed** in any `ceil(peers / steal_attempts)` consecutive failed passes
    of a worker, if there are as many attempts as peers: for every number of workers, every
    peer layout and every interleaving. -/
theorem every_peer_probed (cfg : Config n) (w : Fin n) (hsize : (cfg.numaPeers w).length ≤ 2 ^ 63)
    (hcover : (cfg.numaPeers w).length ≤ cfg.stealAttempts)
    (hrun : Exec (passes cfg) Always (init n Ext T) t s) {ps : List (List (Fin n))}
    (hwindow : ps <:+: failedPasses w t)
    (hlen : ps.length = ((cfg.numaPeers w).length + cfg.stealAttempts - 1) / cfg.stealAttempts) :
    ∀ v ∈ cfg.numaPeers w, ∃ p ∈ ps, v ∈ p := by
  intro v hv
  have hpos : 0 < (cfg.numaPeers w).length := List.length_pos_of_mem hv
  -- there is a peer, so the window is not empty
  have hone : 0 < ps.length := by
    rw [hlen]
    exact Nat.div_pos (by omega) (by omega)
  obtain ⟨p, hp⟩ := List.exists_mem_of_length_pos hone
  refine ⟨p, hp, ?_⟩
  rw [failed_pass_eq hrun p (hwindow.subset hp)]
  exact Config.peers_subset_window hsize hcover v hv

end Passes

/-- `n` workers on one node, each the peer of all others, which spin and yield once. -/
def oneNode (n attempts : Nat) : Config n :=
  ⟨⟨1, 1⟩, fun w => (List.finRange n).filter (· ≠ w), attempts⟩

theorem fifth_peer_never_probed : ∃ v ∈ (oneNode 6 4).numaPeers 0, ∀ t (s : State 6 Unit Nat),
    Exec (passes (oneNode 6 4)) Always (init 6 Unit Nat) t s → ∀ p ∈ failedPasses 0 t, v ∉ p :=
  peer_never_probed Unit Nat (by decide) (by decide)

/-- The executor is started from the outside. -/
def startAll (n : Nat) : List (Act n Unit Nat) :=
  .start (.external ()) :: List.replicate (2 * n + 1) (.goCall (.external ()) true 0)

/-- A worker of three starts and goes through one pass. -/
theorem both_peers_probed : ∃ (t : List (StealEvent 3)) (s : State 3 Unit Nat),
      Exec (passes (oneNode 3 2)) Always (init 3 Unit Nat) t s ∧ failedPasses 0 t = [[2, 1]] ∧
      ∀ v ∈ (oneNode 3 2).numaPeers 0, ∃ p ∈ failedPasses 0 t, v ∈ p := by
  have hrun : Exec (passes (oneNode 3 2)) Always (init 3 Unit Nat) _ _ :=
    exec_run (List.flatten [startAll 3, List.replicate 8 (.goWorker 0)])
  exact ⟨_, _, hrun, by decide +kernel,
    every_peer_probed _ 0 (by decide) (by decide) hrun (List.infix_refl _) (by decide +kernel)⟩

/-- Worker 5 takes an item from the global ring and submits another one from inside of it. -/
def busyPeer : List (Act 6 Unit Nat) :=
  List.flatten [startAll 6, [.add (.external ()) 7, .goCall (.external ()) true 0],
    List.replicate 5 (.goWorker 5), [.add (.worker 5) 8, .goCall (.worker 5) true 0]]

/-- Six workers and four attempts: two failed passes of worker 0 probe the workers 1 to 4 and
    miss the item in the ring of worker 5, which is busy. -/
theorem peer_out_of_reach : ∃ (t : List (StealEvent 6)) (s : State 6 Unit Nat),
      Exec (passes (oneNode 6 4)) Always (init 6 Unit Nat) t s ∧
      (oneNode 6 4).numaPeers 0 = [1, 2, 3, 4, 5] ∧
      failedPasses 0 t = [[4, 3, 2, 1], [4, 3, 2, 1]] ∧
      (failedPasses 0 t).length = (5 + 4 - 1) / 4 ∧ (∀ p ∈ failedPasses 0 t, 5 ∉ p) ∧
      s.localDeque 5 = [8] ∧ s.thread 5 = .executing 7 := by
  have hrun : Exec (passes (oneNode 6 4)) Always (init 6 Unit Nat) _ _ :=
    exec_run (List.flatten [busyPeer, List.replicate 26 (.goWorker 0)])
  exact ⟨_, _, hrun, by decide +kernel⟩

end WorkStealing
