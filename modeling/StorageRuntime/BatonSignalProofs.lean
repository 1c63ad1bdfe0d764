import StorageRuntime.AffinityBatonProofs

/-!
# AffinityBaton — every waiter is signaled exactly once

`related_exec` says that the abstract baton allows the trace of every run.  Here that is read
off the trace itself: what happened to a coroutine since it last suspended is nothing, or one
exchange that claims it, or that and one resumption by the same caller
(`accepts_history`).

* **`waiter_signaled_once`**: for any number of coroutines and callers and every
  interleaving, a suspension is resumed at most once, by the first caller whose exchange
  follows it, through its own route if it recorded a route and a worker; as long as it is not
  resumed it is in the chain or in the part that this caller has still to walk; nobody
  suspends on a posted baton, a posted baton has no chain, and `reset()` removes nobody.
* **`post_completes`**: a caller that keeps running comes to the end of its walk, so that "at
  most once" is "exactly once".
* **`waiter_with_route_resumed_inline`**: a route alone is not enough for a routed wake-up.
-/

namespace AffinityBaton

open Interleaving IntrusiveChain ThreadAffinity

variable {Agent : Type}

/-! ## Reading a trace -/

/-- The node with which `w` last suspended, and what has happened since (newest first). -/
def suspension [DecidableEq Agent] (w : Agent) :
    List (Event Agent) → Option (WaiterNode × List (Event Agent))
  | [] => none
  | .pushed v n k :: t =>
    if v = w then some (n, [])
    else (suspension w t).map fun p => (p.1, .pushed v n k :: p.2)
  | e :: t => (suspension w t).map fun p => (p.1, e :: p.2)

/-- The callers whose exchange took effect, newest first. -/
def exchangers : List (Event Agent) → List Agent
  | [] => []
  | .exchanged a _ :: t => a :: exchangers t
  | _ :: t => exchangers t

/-- The resumptions of `w`, newest first: by whom and how. -/
def resumptions [DecidableEq Agent] (w : Agent) :
    List (Event Agent) → List (Agent × Resumption)
  | [] => []
  | .resumed a v how :: t => if v = w then (a, how) :: resumptions w t else resumptions w t
  | _ :: t => resumptions w t

/-- Events that say nothing about the suspension of `w`. -/
def Event.Beside (w : Agent) : Event Agent → Prop
  | .pushed v _ _ => v ≠ w
  | .exchanged _ _ => False
  | .resumed _ v _ => v ≠ w
  | _ => True

section Reading

variable {t : List (Event Agent)} {e : Event Agent} {w a : Agent}

theorem Event.Beside.ne_pushed (h : e.Beside w) (n : WaiterNode) (k : Option Nat) :
    e ≠ .pushed w n k := by
  rintro rfl
  exact h rfl

theorem exchangers_beside (h : e.Beside w) (t : List (Event Agent)) :
    exchangers (e :: t) = exchangers t := by
  cases e with
  | exchanged a p => exact h.elim
  | _ => rfl

/-- A second exchange does not change which was the first. -/
theorem getLast_cons_of_some {c : Agent} {l : List Agent} (h : l.getLast? = some a) :
    (c :: l).getLast? = some a := by
  rw [List.getLast?_cons, h]
  rfl

variable [DecidableEq Agent]

/-- Only a push of `w` begins a new suspension of `w`. -/
theorem suspension_cons (h : ∀ n k, e ≠ .pushed w n k) {l : List (Event Agent)} {n : WaiterNode}
    (hl : suspension w t = some (n, l)) : suspension w (e :: t) = some (n, e :: l) := by
  cases e with
  | pushed v m k =>
    have hv : v ≠ w := fun hv => h m k (by rw [hv])
    rw [suspension, if_neg hv, hl]
    rfl
  | _ => simp only [suspension, hl, Option.map_some]

theorem suspension_cons_none (h : ∀ n k, e ≠ .pushed w n k) (hl : suspension w t = none) :
    suspension w (e :: t) = none := by
  cases e with
  | pushed v m k =>
    have hv : v ≠ w := fun hv => h m k (by rw [hv])
    rw [suspension, if_neg hv, hl]
    rfl
  | _ => simp only [suspension, hl, Option.map_none]

theorem resumptions_beside (h : e.Beside w) (t : List (Event Agent)) :
    resumptions w (e :: t) = resumptions w t := by
  cases e with
  | resumed a v how => rw [resumptions, if_neg h]
  | _ => rfl

/-- What the trace says about a coroutine at phase `p`. -/
def Told (w : Agent) (t : List (Event Agent)) : Phase Agent → Prop
  | .waiting n => ∃ l, suspension w t = some (n, l) ∧ exchangers l = [] ∧ resumptions w l = []
  | .claimed n a =>
    ∃ l, suspension w t = some (n, l) ∧ (exchangers l).getLast? = some a ∧
      resumptions w l = []
  | .out =>
    suspension w t = none ∧ resumptions w t = [] ∨
    ∃ n l a, suspension w t = some (n, l) ∧ (exchangers l).getLast? = some a ∧
      resumptions w l = [(a, n.resumption)]

/-- An event that does not concern `w` leaves its story as it is. -/
theorem told_beside (h : e.Beside w) {p : Phase Agent} (ht : Told w t p) : Told w (e :: t) p := by
  cases p with
  | waiting n | claimed n a =>
    obtain ⟨l, hl, hx, hr⟩ := ht
    exact ⟨e :: l, suspension_cons h.ne_pushed hl,
      by rw [exchangers_beside h]; exact hx, by rw [resumptions_beside h]; exact hr⟩
  | out =>
    rcases ht with ⟨hl, hr⟩ | ⟨n, l, a, hl, hx, hr⟩
    · exact .inl ⟨suspension_cons_none h.ne_pushed hl,
        by rw [resumptions_beside h]; exact hr⟩
    · exact .inr ⟨n, e :: l, a, suspension_cons h.ne_pushed hl,
        by rw [exchangers_beside h]; exact hx, by rw [resumptions_beside h]; exact hr⟩

/-- An exchange by `a` claims who is waiting. -/
theorem told_exchanged {q : Poster Agent} {p : Phase Agent} (ht : Told w t p) :
    Told w (.exchanged a q :: t) (p.claim a) := by
  cases p with
  | waiting n =>
    obtain ⟨l, hl, hx, hr⟩ := ht
    refine ⟨.exchanged a q :: l, suspension_cons (by simp) hl, ?_, hr⟩
    rw [exchangers, hx]
    rfl
  | claimed n c =>
    obtain ⟨l, hl, hx, hr⟩ := ht
    exact ⟨.exchanged a q :: l, suspension_cons (by simp) hl, getLast_cons_of_some hx, hr⟩
  | out =>
    rcases ht with ⟨hl, hr⟩ | ⟨n, l, c, hl, hx, hr⟩
    · exact .inl ⟨suspension_cons_none (by simp) hl, hr⟩
    · exact .inr ⟨n, .exchanged a q :: l, c, suspension_cons (by simp) hl,
        getLast_cons_of_some hx, hr⟩

/-- Who claimed it resumes it. -/
theorem told_resumed {n : WaiterNode} (ht : Told w t (.claimed n a)) :
    Told w (.resumed a w n.resumption :: t) .out := by
  obtain ⟨l, hl, hx, hr⟩ := ht
  refine .inr ⟨n, .resumed a w n.resumption :: l, a, suspension_cons (by simp) hl, hx, ?_⟩
  rw [resumptions, if_pos rfl, hr]

/-- An event that moves `v` to another phase and does not concern anybody else. -/
theorem told_setPhase {b : Lifecycle Agent} {v : Agent} {p : Phase Agent}
    (hbeside : ∀ w, w ≠ v → e.Beside w) (hv : Told v t (b.phase v) → Told v (e :: t) p)
    (ht : Told w t (b.phase w)) : Told w (e :: t) ((b.setPhase v p).phase w) := by
  by_cases h : w = v
  · subst h
    rw [setPhase_self]
    exact hv ht
  · rw [setPhase_of_ne _ _ h]
    exact told_beside (hbeside w h) ht

/-- One allowed event changes the story of `w` as it changes its phase. -/
theorem told_step {b b' : Lifecycle Agent} (hs : lifecycle.step b e b')
    (ht : Told w t (b.phase w)) : Told w (e :: t) (b'.phase w) := by
  cases hs with
  | pushed _ _ =>
    exact told_setPhase (fun _ h => h.symm) (fun _ => ⟨[], if_pos rfl, rfl, rfl⟩) ht
  | passed _ _ | finished _ | reset _ | fired | returned => exact told_beside (by trivial) ht
  | exchanged => exact told_exchanged ht
  | @routed a v n hph hr hid =>
    have hres : n.resumption = .routed n.route n.workerId := if_pos ⟨hr, hid⟩
    rw [← hres]
    exact told_setPhase (fun _ h => h.symm) (fun h => told_resumed (hph ▸ h)) ht
  | @inline a v n hph hn =>
    have hres : n.resumption = .inline := if_neg fun h => by
      rcases hn with hr | hid
      · rw [hr] at h; exact nomatch h.1
      · exact h.2 hid
    rw [← hres]
    exact told_setPhase (fun _ h => h.symm) (fun h => told_resumed (hph ▸ h)) ht

/-- **The story of a suspension**, as any allowed trace tells it. -/
theorem accepts_history {b : Lifecycle Agent} (h : lifecycle.Accepts t b) (w : Agent) :
    Told w t (b.phase w) := by
  induction h with
  | nil => exact .inl ⟨rfl, rfl⟩
  | cons _ hs ih => exact told_step hs ih

end Reading

/-! ## The parts of the guarantee -/

/-- Following the links from `p` one comes to `w`. -/
def State.Holds (s : State Agent) (p : Option Agent) (w : Agent) : Prop :=
  ∃ c, Chain s.next p c ∧ w ∈ c

/-- Inside `reset()`. -/
def Pc.resetting : Pc Agent → Bool
  | .reset | .resetCas _ => true
  | _ => false

/-- Inside `post()`, `post_direct()` or the `post()` of an expiry callback. -/
def Pc.posting : Pc Agent → Bool
  | .exchange _ | .resumeChain _ _ | .resumeNode _ _ _ _ => true
  | _ => false

theorem isSuspended_of_resetting {p : Pc Agent} (h : p.resetting = true) :
    p.isSuspended = false := by
  cases p with
  | suspended w => cases h
  | _ => rfl

section Parts

variable [DecidableEq Agent]

variable {n : WaiterNode} {w a : Agent} {s : State Agent} {b : Lifecycle Agent}
  {t : List (Event Agent)}

/-- A push takes effect only while the baton is unposted. -/
theorem push_unposted {s' : State Agent} (hR : Related b s) {act : Act Agent} {k : Option Nat}
    (hs : machine.step s act = some s') (he : machine.event s act = some (.pushed w n k)) :
    s.ready = false := by
  have hm := related_step hR hs
  rw [he] at hm
  obtain ⟨b', hb', -⟩ := hm
  obtain ⟨l, r, hi⟩ := hR
  cases hb' with
  | pushed hposted _ => exact hi.posted.symm.trans hposted

/-- `reset()` keeps the chain and everyone's suspension. -/
theorem reset_keeps_waiters {s' : State Agent} {spurious : Bool} (ha : (s.pc a).resetting = true)
    (hs : machine.step s (.go a n spurious) = some s') :
    s'.word.ptr = s.word.ptr ∧ s'.next = s.next ∧
      ∀ w, (s.pc w).isSuspended = true → s'.pc w = s.pc w := by
  have hm : GoMove s a n spurious (s.pc a) s' _ := go_moves hs
  -- every outcome moves `a`, which is not suspended, and nobody else
  have hmove : ∀ (s₁ : State Agent) (p : Pc Agent), s₁.pc = s.pc → ∀ w,
      (s.pc w).isSuspended = true → (s₁.setPc a p).pc w = s.pc w := by
    intro s₁ p h₁ w hw
    have hwa : w ≠ a := fun h => by
      rw [h, isSuspended_of_resetting ha] at hw
      cases hw
    rw [setPc_of_ne _ _ hwa, h₁]
  generalize event s (.go a n spurious) = o at hm
  generalize hpc : s.pc a = q at hm ha
  cases hm with
  | resetLoad | resetLeave | reset | resetRetry | resetFail => exact ⟨rfl, rfl, hmove _ _ rfl⟩
  | pass _ _ hasks _ | attempt _ hasks _ => cases hasks <;> cases ha
  | _ => cases ha

/-- Resuming somebody else leaves a caller of `resume_chain` where it is. -/
theorem resume_pc_resumeChain {p : Poster Agent} {ptr : Option Agent}
    (ha : s.pc a = .resumeChain p ptr) : (s.resume w).pc a = .resumeChain p ptr := by
  rw [State.resume]
  cases hw : s.pc w with
  | suspended wt =>
    have haw : a ≠ w := fun h => by rw [← h, ha] at hw; cases hw
    rw [setPc_of_ne _ _ haw]
    exact ha
  | _ => exact ha

theorem resume_next (s : State Agent) (w : Agent) : (s.resume w).next = s.next := by
  rw [State.resume]
  split <;> rfl

/-- A walk along a chain comes to its end, by induction on the chain. -/
theorem walk_completes {p : Poster Agent} :
    ∀ (c : List Agent) {t : List (Event Agent)} {s : State Agent} {ptr : Option Agent},
    Exec machine Always init t s → s.pc a = .resumeChain p ptr → Chain s.next ptr c →
    ∃ t' s', Exec machine Always init t' s' ∧ t <:+ t' ∧ s'.pc a = .idle := by
  intro c
  induction c with
  | nil =>
    intro t s ptr h ha hc
    obtain rfl := hc
    refine ⟨_, s.setPc a .idle, Exec.step (.go a ⟨0, .null⟩ false) h trivial ?_,
      Machine.suffix_record .., setPc_self ..⟩
    show go s a _ _ = _
    rw [go, ha]
  | cons w c ih =>
    intro t s ptr h ha hc
    obtain ⟨rfl, hc⟩ := hc
    -- read the node of `w`, resume it, and go on with the rest
    have h₁ := Exec.step (.go a ⟨0, .null⟩ false) h trivial
      (show machine.step s (.go a ⟨0, .null⟩ false) =
        some (s.setPc a (.resumeNode p w (s.next w) (s.node w).resumption)) by
          show go s a _ _ = _
          rw [go, ha])
    have h₂ := Exec.step (.go a ⟨0, .null⟩ false) h₁ trivial
      (show machine.step _ (.go a ⟨0, .null⟩ false) =
        some (((s.setPc a (.resumeNode p w (s.next w) (s.node w).resumption)).setPc a
          (.resumeChain p (s.next w))).resume w) by
          show go _ a _ _ = _
          rw [go, setPc_self])
    obtain ⟨t', s', h', ht', hs'⟩ := ih h₂
      (resume_pc_resumeChain (setPc_self ..)) (by rw [resume_next]; exact hc)
    refine ⟨t', s', h', ?_, hs'⟩
    exact (Machine.suffix_record ..).trans ((Machine.suffix_record ..).trans ht')

/-- **A `post()` that keeps running returns.** -/
theorem post_completes (h : Exec machine Always init t s) (ha : (s.pc a).posting = true) :
    ∃ t' s', Exec machine Always init t' s' ∧ t <:+ t' ∧ s'.pc a = .idle := by
  obtain ⟨b, -, l, r, hi⟩ := related_exec h
  cases hpc : s.pc a with
  | exchange p =>
    have h₁ := Exec.step (.go a ⟨0, .null⟩ false) h trivial
      (show machine.step s (.go a ⟨0, .null⟩ false) = _ by
        show go s a _ _ = _
        rw [go, hpc])
    obtain ⟨t', s', h', ht', hs'⟩ := walk_completes l h₁ (setPc_self ..) hi.chain
    exact ⟨t', s', h', (Machine.suffix_record ..).trans ht', hs'⟩
  | resumeChain p ptr =>
    have hc := hi.walks a
    rw [hpc] at hc
    exact walk_completes (r a) h hpc hc
  | resumeNode p w nx how =>
    obtain ⟨c, -, hc, -⟩ := hi.resumeNode_mem hpc
    have h₁ := Exec.step (.go a ⟨0, .null⟩ false) h trivial
      (show machine.step s (.go a ⟨0, .null⟩ false) = _ by
        show go s a _ _ = _
        rw [go, hpc])
    obtain ⟨t', s', h', ht', hs'⟩ := walk_completes c h₁
      (resume_pc_resumeChain (setPc_self ..)) (by rw [resume_next]; exact hc)
    exact ⟨t', s', h', (Machine.suffix_record ..).trans ht', hs'⟩
  | _ => rw [hpc] at ha; cases ha

/-- What has happened to a suspension so far, from the abstract baton and the relation. -/
theorem suspension_story (hacc : lifecycle.Accepts t b) (hR : Related b s) {l : List (Event Agent)}
    (hw : suspension w t = some (n, l)) :
    (exchangers l = [] ∧ resumptions w l = [] ∧ s.Holds s.word.ptr w) ∨
    ∃ a, (exchangers l).getLast? = some a ∧ (resumptions w l = [] ∧ s.Holds (s.pc a).pending w ∨
        resumptions w l = [(a, n.resumption)]) := by
  have htold := accepts_history hacc w
  obtain ⟨c, r, hi⟩ := hR
  generalize hp : b.phase w = p at htold ⊢
  cases p with
  | waiting m =>
    obtain ⟨l', hl', hx, hr⟩ := htold
    obtain ⟨rfl, rfl⟩ := Prod.mk.inj (Option.some.inj (hw.symm.trans hl'))
    exact .inl ⟨hx, hr, c, hi.chain, ((hi.waiting w n).mp hp).1⟩
  | claimed m a =>
    obtain ⟨l', hl', hx, hr⟩ := htold
    obtain ⟨rfl, rfl⟩ := Prod.mk.inj (Option.some.inj (hw.symm.trans hl'))
    exact .inr ⟨a, hx, .inl ⟨hr, r a, hi.walks a, ((hi.claimed w n a).mp hp).1⟩⟩
  | out =>
    rcases htold with ⟨hnone, -⟩ | ⟨m, l', a, hl', hx, hr⟩
    · rw [hnone] at hw
      cases hw
    · obtain ⟨rfl, rfl⟩ := Prod.mk.inj (Option.some.inj (hw.symm.trans hl'))
      exact .inr ⟨a, hx, .inr hr⟩

/-- Who never suspended is never resumed. -/
theorem no_suspension_no_resumption (hacc : lifecycle.Accepts t b) (hw : suspension w t = none) :
    resumptions w t = [] := by
  have htold := accepts_history hacc w
  cases hp : b.phase w with
  | waiting m | claimed m a => rw [hp] at htold; obtain ⟨l, hl, -⟩ := htold; rw [hl] at hw; cases hw
  | out =>
    rw [hp] at htold
    rcases htold with ⟨-, hr⟩ | ⟨m, l, a, hl, -⟩
    · exact hr
    · rw [hl] at hw; cases hw

end Parts

/-- **Every waiter is signaled exactly once.**  For any number of coroutines and callers, any
    interleaving, and at every moment of it:

    * since `w` last suspended, either no exchange has happened, `w` was not resumed and is in
      the chain; or the first exchange since was by some `a`, and `w` was not resumed and is in
      the part of the chain that `a` still has to walk, or was resumed once, by `a`, through
      its own route if it recorded a route and a worker, and inline otherwise;
    * who never suspended was never resumed;
    * a posted baton has no chain, and a push takes effect only on an unposted baton;
    * a step of `reset()` keeps the chain and everyone's suspension;
    * a `post()` under way returns if it keeps running. -/
theorem waiter_signaled_once [DecidableEq Agent] {t : List (Event Agent)} {s : State Agent}
    (h : Exec machine Always init t s) :
    (∀ w n l, suspension w t = some (n, l) →
      (exchangers l = [] ∧ resumptions w l = [] ∧ s.Holds s.word.ptr w) ∨
      ∃ a, (exchangers l).getLast? = some a ∧ (resumptions w l = [] ∧ s.Holds (s.pc a).pending w ∨
          resumptions w l = [(a,
            if n.route.isSet = true ∧ n.workerId ≠ SIZE_MAX then .routed n.route n.workerId
            else .inline)])) ∧
    (∀ w, suspension w t = none → resumptions w t = []) ∧
    (s.ready = true → s.word.ptr = none) ∧
    (∀ act s' w n k, machine.step s act = some s' →
      machine.event s act = some (.pushed w n k) → s.ready = false) ∧
    (∀ a n spurious s', (s.pc a).resetting = true → machine.step s (.go a n spurious) = some s' →
      s'.word.ptr = s.word.ptr ∧ s'.next = s.next ∧
        ∀ w, (s.pc w).isSuspended = true → s'.pc w = s.pc w) ∧
    (∀ a, (s.pc a).posting = true →
      ∃ t' s', Exec machine Always init t' s' ∧ t <:+ t' ∧ s'.pc a = .idle) := by
  obtain ⟨b, hacc, hR⟩ := related_exec h
  refine ⟨fun w n l hw => suspension_story hacc hR hw,
    fun w hw => no_suspension_no_resumption hacc hw, ?_,
    fun act s' w n k hs he => push_unposted hR hs he,
    fun a n spurious s' ha hs => reset_keeps_waiters ha hs,
    fun a ha => post_completes h ha⟩
  obtain ⟨l, r, hi⟩ := hR
  exact hi.empty

/-- `k` atomic operations of agent `a`, on a thread where a suspension records `n`. -/
def ops (a : Agent) (n : WaiterNode) (k : Nat) : List (Act Agent) :=
  List.replicate k (.go a n false)

/-- Two coroutines wait, one of them on an online worker; one `post()` resumes both, and then
    a third goes past the posted baton. -/
theorem two_waiters_signaled : ∃ (t : List (Event (Fin 4))) (s : State (Fin 4)),
      Exec machine Always init t s ∧
      resumptions 0 t = [(2, .routed (.online 5) 5)] ∧ resumptions 1 t = [(2, .inline)] ∧
      s.pc 3 = .awaitResume .plain ∧ s.word.ptr = none := by
  have hrun : Exec machine Always init _ _ :=
    exec_run (.coAwait (0 : Fin 4) :: ops 0 ⟨5, .online 5⟩ 3
      ++ .coAwait 1 :: ops 1 ⟨SIZE_MAX, .null⟩ 3
      ++ .post 2 :: ops 2 ⟨SIZE_MAX, .null⟩ 6 ++ .coAwait 3 :: ops 3 ⟨SIZE_MAX, .null⟩ 1)
      (by decide)
  exact ⟨_, _, hrun, by decide, by decide, by decide, (waiter_signaled_once hrun).2.2.1 (by decide)⟩

/-- **A route alone does not route.**  Online worker 1 leaves its loop, and a coroutine that
    suspends on online worker 0 records the route of worker 0 and no worker id; a `post()`
    resumes a coroutine that waits with this node inline, although it has a route. -/
theorem waiter_with_route_resumed_inline :
    ∃ (t : List (Wakeup (Fin 3) Nat)) (s : ThreadAffinity.State (Fin 3) Nat)
      (w : Suspension (Fin 3)),
      Exec (ThreadAffinity.machine twoOnline) Always ThreadAffinity.init t s ∧
      s.waiting 7 = some w ∧ w.node.route.isSet = true ∧
      ∃ (t' : List (Event (Fin 2))) (s' : State (Fin 2)),
        Exec machine Always init t' s' ∧ .pushed 0 w.node none ∈ t' ∧
          resumptions 0 t' = [(1, .inline)] := by
  let acts : List (ThreadAffinity.Act (Fin 3) Nat) := [.enter 0, .install 0, .enter 1,
    .install 1, .leave 1, .uninstall 1, .suspend 0 7]
  have hthreads : Exec (ThreadAffinity.machine twoOnline) Always ThreadAffinity.init _ _ :=
    exec_run acts
  have hrun : Exec machine Always init _ _ :=
    exec_run (.coAwait (0 : Fin 2) :: ops 0 ⟨SIZE_MAX, .online 0⟩ 3
      ++ .post 1 :: ops 1 ⟨SIZE_MAX, .null⟩ 4) (by decide)
  exact ⟨_, _, ⟨0, .noAffinity, ⟨SIZE_MAX, .online 0⟩⟩, hthreads, by decide, by decide,
    _, _, hrun, by decide⟩

end AffinityBaton
