import StorageRuntime.WorkStealingProofs

/-!
# WorkStealingExecutor — when `stop()` is final

A worker's `running` flag is set by `start()`, cleared by `stop()`, and set
once more by the worker's own thread when it finally begins.  If that last
store comes after the store of `stop()`, the flag is true again although
`stop()` has returned, and the worker enters its loop
(`worker_runs_after_stop`).

**`stop_sticky_of_begun`**: in every run in which a `stop()` that follows
`start()` clears a flag only after the worker's thread made its own store, all
flags are false from the return of `stop()` to the next `start()`.
-/

namespace WorkStealing

open Function Interleaving AdaptiveIdle

variable {n : Nat} {Ext T : Type} [DecidableEq Ext]

/-! ## What a trace says -/

/-- The threads that are inside `start()`. -/
def openStarts : List (Event n Ext) → List (Thread n Ext)
  | [] => []
  | .startCalled a :: t => a :: openStarts t
  | .startReturned a :: t => (openStarts t).erase a
  | _ :: t => openStarts t

/-- A `start()` has returned. -/
def started : List (Event n Ext) → Bool
  | [] => false
  | .startReturned _ :: _ => true
  | _ :: t => started t

/-- The last `stop()` of thread `a` follows `start()`: when it was called a `start()` had
    returned and none was going on, and none was called since. -/
def follows : List (Event n Ext) → Thread n Ext → Bool
  | [], _ => false
  | .startCalled _ :: _, _ => false
  | .stopCalled b :: t, a => if a = b then started t && (openStarts t).isEmpty else follows t a
  | _ :: t, a => follows t a

/-- A `stop()` that follows `start()` has returned, and there was no `start()` since. -/
def stopped : List (Event n Ext) → Bool
  | [] => false
  | .startCalled _ :: _ => false
  | .stopReturned a :: t => stopped t || follows t a
  | _ :: t => stopped t

/-! ## The invariant -/

/-- The call is inside `start()`. -/
def Call.starting : Call n T → Bool
  | .startRunning _ | .startThread _ => true
  | _ => false

/-- The call is inside `stop()`, which has dealt with the workers before this one. -/
def Call.stopping : Call n T → Option Nat
  | .stopRunning i => some i
  | .notify _ _ k => k
  | _ => .none

/-- The worker's flag is down and its thread will not raise it. -/
def Off (s : State n Ext T) (w : Fin n) : Prop :=
  s.running w = false ∧ s.thread w ≠ .created

structure StopInv (t : List (Event n Ext)) (s : State n Ext T) : Prop where
  starting : ∀ a, (s.call a).starting = true → a ∈ openStarts t
  calm : ∀ a, follows t a = true → openStarts t = []
  quiet : stopped t = true → openStarts t = []
  progress : ∀ a i, follows t a = true → (s.call a).stopping = some i →
    ∀ w : Fin n, w.val < i → Off s w
  done : stopped t = true → ∀ w, Off s w

theorem stopInv_init : StopInv [] (init n Ext T) :=
  ⟨nofun, nofun, nofun, nofun, nofun⟩

section Steps

variable {t : List (Event n Ext)} {s s' : State n Ext T} {a : Thread n Ext} {c : Call n T}

/-- A step without an event that leaves the calls alone. -/
theorem StopInv.keep (h : StopInv t s) (hcall : s'.call = s.call)
    (hoff : ∀ w, Off s w → Off s' w) : StopInv t s' := by
  refine ⟨?_, h.calm, h.quiet, ?_, fun hs w => hoff w (h.done hs w)⟩
  · rw [hcall]
    exact h.starting
  · intro b i hb hi w hw
    rw [hcall] at hi
    exact hoff w (h.progress b i hb hi w hw)

/-- A step without an event that moves one call. -/
theorem StopInv.moves (h : StopInv t s) (hcall : s'.call = update s.call a c)
    (hstart : c.starting = true → a ∈ openStarts t)
    (hoff : openStarts t = [] → ∀ w, Off s w → Off s' w)
    (hprog : follows t a = true → ∀ i, c.stopping = some i →
      ∀ w : Fin n, w.val < i → Off s' w) : StopInv t s' := by
  refine ⟨?_, h.calm, h.quiet, ?_, fun hs w => hoff (h.quiet hs) w (h.done hs w)⟩
  · intro b hb
    rw [hcall] at hb
    rcases update_cases Call.starting hb with ⟨rfl, hc⟩ | ⟨-, hc⟩
    · exact hstart hc
    · exact h.starting b hc
  · intro b i hf hb w hw
    rw [hcall] at hb
    rcases update_cases Call.stopping hb with ⟨rfl, hc⟩ | ⟨-, hc⟩
    · exact hprog hf i hc w hw
    · exact hoff (h.calm b hf) w (h.progress b i hf hc w hw)

theorem StopInv.startCalled (h : StopInv t s) (a : Thread n Ext) :
    StopInv (.startCalled a :: t) (s.setCall a (.startRunning 0)) := by
  refine ⟨?_, nofun, nofun, nofun, nofun⟩
  intro b hb
  rcases update_cases Call.starting hb with ⟨rfl, -⟩ | ⟨-, hc⟩
  · exact List.mem_cons_self
  · exact List.mem_cons_of_mem _ (h.starting b hc)

theorem StopInv.startReturned (h : StopInv t s) (a : Thread n Ext) :
    StopInv (.startReturned a :: t) (s.setCall a .none) := by
  have herase : openStarts t = [] → openStarts (.startReturned a :: t) = [] := by
    intro hnil
    rw [openStarts, hnil]
    rfl
  refine ⟨?_, fun b hb => herase (h.calm b hb), fun hs => herase (h.quiet hs), ?_, h.done⟩
  · intro b hb
    rcases update_cases Call.starting hb with ⟨-, hc⟩ | ⟨hba, hc⟩
    · cases hc
    · exact (List.mem_erase_of_ne hba).mpr (h.starting b hc)
  · intro b i hf hi
    rcases update_cases Call.stopping hi with ⟨-, hc⟩ | ⟨-, hc⟩
    · cases hc
    · exact h.progress b i hf hc

/-- `stop()` is called: it has dealt with no worker yet. -/
theorem StopInv.stopCalled (h : StopInv t s) (a : Thread n Ext) :
    StopInv (.stopCalled a :: t) (s.setCall a (.stopRunning 0)) := by
  refine ⟨?_, ?_, h.quiet, ?_, h.done⟩
  · intro b hb
    rcases update_cases Call.starting hb with ⟨-, hc⟩ | ⟨-, hc⟩
    · cases hc
    · exact h.starting b hc
  · intro b hb
    rw [follows] at hb
    split at hb
    next =>
      obtain ⟨-, hempty⟩ := Bool.and_eq_true_iff.mp hb
      exact List.isEmpty_iff.mp hempty
    next => exact h.calm b hb
  · intro b i hf hi
    rcases update_cases Call.stopping hi with ⟨-, hc⟩ | ⟨hba, hc⟩
    · cases hc
      exact fun w hw => absurd hw (Nat.not_lt_zero _)
    · rw [follows, if_neg hba] at hf
      exact h.progress b i hf hc

/-- `stop()` returns: it has dealt with all workers. -/
theorem StopInv.stopReturned (h : StopInv t s) {i : Nat} (hi : n ≤ i)
    (ha : s.call a = .stopRunning i) : StopInv (.stopReturned a :: t) (s.setCall a .none) := by
  refine ⟨?_, h.calm, ?_, ?_, ?_⟩
  · intro b hb
    rcases update_cases Call.starting hb with ⟨-, hc⟩ | ⟨-, hc⟩
    · cases hc
    · exact h.starting b hc
  · intro hs
    rcases Bool.or_eq_true_iff.mp hs with hs | hf
    · exact h.quiet hs
    · exact h.calm a hf
  · intro b j hf hj
    rcases update_cases Call.stopping hj with ⟨-, hc⟩ | ⟨-, hc⟩
    · cases hc
    · exact h.progress b j hf hc
  · intro hs
    rcases Bool.or_eq_true_iff.mp hs with hs | hf
    · exact h.done hs
    · exact fun w => h.progress a i hf (by rw [ha]; rfl) w (Nat.lt_of_lt_of_le w.isLt hi)

/-- Notifications are nothing to it. -/
theorem StopInv.raised (h : StopInv t s) (v : Fin n) : StopInv (.raised v :: t) s :=
  { h with }

/-! ## Every step keeps the invariant -/

omit [DecidableEq Ext] in
theorem off_setThread {v w : Fin n} {q : WorkerPc T} (h : Off s v) (hq : q ≠ .created) :
    Off (s.setThread w q) v := by
  refine ⟨h.1, fun hc => ?_⟩
  rcases update_cases id hc with ⟨-, hc⟩ | ⟨-, hc⟩
  · exact hq hc
  · exact h.2 hc

omit [DecidableEq Ext] in
theorem off_wake {v w : Fin n} (h : Off s v) : Off (s.setThread w (s.thread w).wake) v := by
  refine ⟨h.1, fun hc => ?_⟩
  rcases update_cases id hc with ⟨rfl, hc⟩ | ⟨-, hc⟩
  · -- waking does not undo the beginning
    refine h.2 ?_
    cases hp : s.thread v with
    | created => rfl
    | idle p =>
      rw [hp] at hc
      cases hc
    | _ =>
      rw [hp] at hc
      exact hc
  · exact h.2 hc

omit [DecidableEq Ext] in
/-- A worker that is off stays off through all steps of workers. -/
theorem WorkerMove.off {cfg : Config n} {v w : Fin n} {p : WorkerPc T} (hp : s.thread w = p)
    (hm : WorkerMove cfg s w p s') (h : Off s v) : Off s' v := by
  cases hm with
  | begins =>
    -- the worker that begins was not off
    have hvw : v ≠ w := by
      rintro rfl
      exact h.2 hp
    refine off_setThread ⟨?_, h.2⟩ (by simp)
    exact (update_of_ne hvw _ _).trans h.1
  | idles hidle => exact off_setThread h (by split <;> simp)
  | resumes _ | pops _ | pulls _ | steals _ => exact off_setThread (s := { s with }) h (by simp)
  | _ => exact off_setThread h (by simp)

/-- A worker that is off stays off through all steps of calls but those of `start()`. -/
theorem CallMove.off {v : Fin n} {s₁ : State n Ext T} {c₀ : Call n T}
    (hm : CallMove s a c₀ s₁ c) (hstart : c₀.starting = false) (h : Off s v) :
    Off (s₁.setCall a c) v := by
  cases hm with
  | enqueued q item announce room => cases q <;> exact h
  | woken _ _ => exact off_wake h
  | startStore _ | startCreate _ => cases hstart
  | stopStore w =>
    refine ⟨?_, h.2⟩
    rcases eq_or_ne v w with rfl | hvw
    · exact update_self ..
    · exact (update_of_ne hvw _ _).trans h.1
  | joined _ => exact off_setThread h (by simp)
  | _ => exact h

/-- The thread in `stop()` and the worker whose flag the action clears. -/
def State.clears (s : State n Ext T) : Act n Ext T → Option (Thread n Ext × Fin n)
  | .goCall a _ _ =>
    match s.call a with
    | .stopRunning i => if h : i < n then some (a, ⟨i, h⟩) else .none
    | _ => .none
  | _ => .none

/-- A `stop()` that follows `start()` clears the flag of a worker only when the worker's
    thread has made its own store. -/
def Begun (t : List (Event n Ext)) (s : State n Ext T) (act : Act n Ext T) : Prop :=
  ∀ x ∈ s.clears act, follows t x.1 = true → s.thread x.2 ≠ .created

instance [DecidableEq T] (t : List (Event n Ext)) (s : State n Ext T) (act : Act n Ext T) :
    Decidable (Begun t s act) :=
  inferInstanceAs (Decidable (∀ x ∈ s.clears act, _))

theorem StopInv.goCall (h : StopInv t s) {s₁ : State n Ext T} {c₀ : Call n T}
    {room : Bool} {counter : Nat} (ha : s.call a = c₀) (hm : CallMove s a c₀ s₁ c)
    (hbegun : Begun t s (.goCall a room counter)) :
    StopInv (note t (c₀.shows a)) (s₁.setCall a c) := by
  -- the call stays in its `stop()`, or is in none
  have hplain : s₁.call = s.call → c₀.starting = false → c.starting = false →
      (∀ i, c.stopping = some i → c₀.stopping = some i) → StopInv t (s₁.setCall a c) := by
    intro hcall hstart hc hstop
    refine h.moves (by rw [State.setCall, hcall]) (by rw [hc]; nofun)
      (fun _ w hw => hm.off hstart hw) ?_
    intro hf i hi w hw
    exact hm.off hstart (h.progress a i hf (by rw [ha]; exact hstop i hi) w hw)
  -- while a `start()` goes on nothing is claimed
  have hstarting : s₁.call = s.call → c₀.starting = true → StopInv t (s₁.setCall a c) := by
    intro hcall hstart
    have hmem : a ∈ openStarts t := h.starting a (by rw [ha]; exact hstart)
    refine h.moves (by rw [State.setCall, hcall]) (fun _ => hmem) ?_ ?_
    · intro hnil
      exact absurd hmem (by rw [hnil]; exact List.not_mem_nil)
    · intro hf
      exact absurd hmem (by rw [h.calm a hf]; exact List.not_mem_nil)
  cases hm with
  | enqueued q item announce room =>
    refine hplain (by cases q <;> rfl) rfl ?_ ?_
    · cases announce <;> cases q <;> rfl
    · cases announce <;> cases q <;> nofun
  | chosen v | joinSkip _ | joined _ | joinDone _ =>
    exact hplain rfl rfl rfl nofun
  | stage hn =>
    next v p p' k g =>
    have hstay := hplain rfl rfl rfl (fun _ hi => hi)
    cases p with
    | generation => exact hstay.raised v
    | _ => exact hstay
  | woken v k =>
    cases k with
    | none => exact hplain rfl rfl rfl nofun
    | some k => exact hplain rfl rfl rfl (fun _ hi => hi)
  | startStore v =>
    rw [Call.shows, if_pos v.isLt]
    exact hstarting rfl rfl
  | startCreate hv =>
    exact hstarting rfl rfl
  | startDone hi =>
    rw [Call.shows, if_neg (Nat.not_lt.mpr hi)]
    exact h.startReturned a
  | stopDone hi =>
    rw [Call.shows, if_neg (Nat.not_lt.mpr hi)]
    exact h.stopReturned hi ha
  | stopStore v =>
    have hoff : ∀ w, Off s w → Off _ w := fun w hw =>
      (CallMove.stopStore (s := s) (a := a) v).off rfl hw
    rw [Call.shows, if_pos v.isLt]
    refine h.moves rfl nofun (fun _ => hoff) ?_
    intro hf i hi w hw
    cases hi
    rcases Nat.lt_succ_iff_lt_or_eq.mp hw with hlt | heq
    · exact hoff w (h.progress a v.val hf (by rw [ha]; rfl) w hlt)
    · obtain rfl : w = v := Fin.ext heq
      have hclears : (a, w) ∈ s.clears (.goCall a room counter) := by
        simp [State.clears, ha]
      exact ⟨update_self .., hbegun (a, w) hclears hf⟩

theorem StopInv.step {cfg : Config n} {act : Act n Ext T} (h : StopInv t s)
    (hm : StepMove cfg s act s') (hbegun : Begun t s act) : StopInv (note t (event s act)) s' := by
  cases hm with
  | begins hb hf =>
    cases hb with
    | start => exact h.startCalled _
    | stop => exact h.stopCalled _
    -- the other calls are neither in `start()` nor in `stop()`
    | _ => exact h.moves rfl (by rintro ⟨⟩) (fun _ _ hw => hw) (by rintro _ _ ⟨⟩)
  | ignored a id item => exact h
  | yields w item hf => exact h.keep rfl (fun _ hw => hw)
  | finishes w hf => exact h.keep rfl (fun _ hw => off_setThread hw (by simp))
  | calls room counter hm => exact h.goCall rfl hm hbegun
  | works hm => exact h.keep hm.call (fun _ hw => hm.off rfl hw)
  | wakes w => exact h.keep rfl (fun _ hw => off_wake hw)

end Steps

/-! ## Whole runs -/

/-- **`stop()` is final.**  In every run whose stores of `stop()` find the workers begun,
    from the return of a `stop()` that follows `start()` to the next `start()` no flag is
    true, and a worker that tests its flag leaves the loop. -/
theorem stop_sticky_of_begun (cfg : Config n) {t : List (Event n Ext)} {s : State n Ext T}
    (hrun : Exec (machine cfg) Begun (init n Ext T) t s) (hstopped : stopped t = true) :
    (∀ w, s.running w = false) ∧
    ∀ w s', s.thread w = .loopTest → (machine cfg).step s (.goWorker w) = some s' →
      s'.thread w = .exited := by
  have h : StopInv t s := by
    refine hrun.invariant StopInv stopInv_init ?_
    intro t s act s' ih hbegun hstep
    exact ih.step (step_moves hstep) hbegun
  refine ⟨fun w => (h.done hstopped w).1, ?_⟩
  intro w s' hw hstep
  have hgo : s.goWorker cfg w = some s' := hstep
  simp only [State.goWorker, hw, (h.done hstopped w).1] at hgo
  cases hgo
  exact update_self ..

/-- Steps of the external thread. -/
def steps (k : Nat) : List (Act 1 Unit Nat) :=
  List.replicate k (.goCall (.external ()) true 0)

/-- The worker's thread has begun before `stop()` clears its flag: the worker leaves. -/
theorem stop_after_begin : ∃ (t : List (Event 1 Unit)) (s : State 1 Unit Nat),
      Exec (machine soloConfig) Begun (init 1 Unit Nat) t s ∧ stopped t = true ∧
      s.thread 0 = .loopTest ∧ ∀ w, s.running w = false := by
  have hrun : Exec (machine soloConfig) Begun (init 1 Unit Nat) _ _ :=
    exec_run (.start (.external ()) :: steps 3 ++ [.goWorker 0] ++
      .stop (.external ()) :: steps 8) (by decide)
  exact ⟨_, _, hrun, by decide, by decide, (stop_sticky_of_begun soloConfig hrun (by decide)).1⟩

/-- `stop()` has returned, and then the worker's thread begins: it raises its own flag again
    and enters its loop. -/
theorem worker_runs_after_stop : ∃ (t : List (Event 1 Unit)) (s : State 1 Unit Nat),
      Exec (machine soloConfig) Always (init 1 Unit Nat) t s ∧ stopped t = true ∧
      s.running 0 = true ∧ s.thread 0 = .yieldCheck := by
  have hrun : Exec (machine soloConfig) Always (init 1 Unit Nat) _ _ :=
    exec_run (.start (.external ()) :: steps 3 ++ .stop (.external ()) :: steps 8 ++
      [.goWorker 0, .goWorker 0]) (by decide)
  exact ⟨_, _, hrun, by decide⟩

end WorkStealing
