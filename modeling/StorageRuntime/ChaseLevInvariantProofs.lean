import StorageRuntime.ChaseLevDequeProofs

/-!
# ChaseLevDeque — every item is handed out exactly once

The specification `dequeSpec` is a list of items: a push appends, a pop removes the last
item, a steal removes the first.  The deque refines it.

* **`items_handed_out_once`**: the trace of every run is one of the specification, what
  was pushed is what was returned and what is left, steals come in push order, and
  between calls of the owner what is left is what lies between `top_` and `bottom_`.

Two bounds carry the invariant.  Below `limit` are the items that count as being in the
deque, also while a `pop` has already lowered `bottom_`; below `reach` are those that a
thief may still get.  They differ only when a `pop` has seen that its item is not the
last one: from then on no thief can be after that item.
-/

namespace ChaseLev

open Function Interleaving RingBuffer
open scoped List

variable {Θ T : Type}

/-! ## The specification -/

def dequeSpec (T : Type) : TraceSpec (List T) (Event T) where
  start := []
  step q e q' :=
    match e with
    | .pushed x => q' = q ++ [x]
    | .popped x => q = q' ++ [x]
    | .stolen x => q = x :: q'

/-- The pushed items, the oldest first. -/
def pushes : List (Event T) → List T
  | [] => []
  | .pushed x :: t => pushes t ++ [x]
  | _ :: t => pushes t

/-- The items that `pop` returned. -/
def pops : List (Event T) → List T
  | [] => []
  | .popped x :: t => pops t ++ [x]
  | _ :: t => pops t

/-- The stolen items, the oldest first. -/
def steals : List (Event T) → List T
  | [] => []
  | .stolen x :: t => steals t ++ [x]
  | _ :: t => steals t

section Spec

variable {t : List (Event T)} {q : List T}

/-- **Nothing is lost or returned twice** by the specification. -/
theorem accepts_perm (h : (dequeSpec T).Accepts t q) : pushes t ~ pops t ++ (steals t ++ q) := by
  induction h with
  | nil => exact .refl _
  | @cons t q q' e _ hstep ih =>
    cases e with
    | pushed x =>
      obtain rfl : q' = q ++ [x] := hstep
      show pushes t ++ [x] ~ pops t ++ (steals t ++ (q ++ [x]))
      rw [← List.append_assoc (steals t), ← List.append_assoc (pops t)]
      exact ih.append_right [x]
    | popped x =>
      obtain rfl : q = q' ++ [x] := hstep
      refine ih.trans ?_
      show pops t ++ (steals t ++ (q' ++ [x])) ~ pops t ++ [x] ++ (steals t ++ q')
      rw [List.append_assoc, ← List.append_assoc (steals t)]
      exact List.perm_append_comm.append_left _
    | stolen x =>
      obtain rfl : q = x :: q' := hstep
      refine ih.trans ?_
      show pops t ++ (steals t ++ x :: q') ~ pops t ++ (steals t ++ [x] ++ q')
      rw [List.append_assoc, List.singleton_append]

/-- **Steals come in push order**, and what is left comes after them. -/
theorem accepts_sublist (h : (dequeSpec T).Accepts t q) : steals t ++ q <+ pushes t := by
  induction h with
  | nil => exact .refl _
  | @cons t q q' e _ hstep ih =>
    cases e with
    | pushed x =>
      obtain rfl : q' = q ++ [x] := hstep
      rw [← List.append_assoc]
      exact ih.append (.refl _)
    | popped x =>
      obtain rfl : q = q' ++ [x] := hstep
      exact ((List.sublist_append_left q' [x]).append_left _).trans ih
    | stolen x =>
      obtain rfl : q = x :: q' := hstep
      show steals t ++ [x] ++ q' <+ pushes t
      rw [List.append_assoc, List.singleton_append]
      exact ih

end Spec

/-! ## The invariant -/

/-- Where the items of the deque end. -/
def OwnerPc.limit (bottom : Int) : OwnerPc T → Int
  | .popArray b | .popStore b _ | .popTop b _ | .popTake b _ _ | .popCas b _ _ | .popWon b _
  | .popLost b => b + 1
  | _ => bottom

/-- Where the items end that a thief may get. -/
def OwnerPc.reach (bottom : Int) : OwnerPc T → Int
  | .popTake b _ t => if t = b then b + 1 else b
  | p => p.limit bottom

def State.limit (s : State Θ T) : Int := s.owner.limit s.bottom

def State.reach (s : State Θ T) : Int := s.owner.reach s.bottom

/-- The array that `array_` points to. -/
def State.current (s : State Θ T) : CircularArray T := s.arrays s.array

/-- The items of the deque, the next to be stolen first. -/
def State.contents (s : State Θ T) : List T := segment s.current.load s.top s.limit

/-- What the owner can rely on where it is. -/
def OwnerOk (s : State Θ T) : OwnerPc T → Prop
  | .idle | .pushBottom _ | .popBottom => True
  | .pushTop _ b => b = s.bottom
  | .pushArray _ b t => b = s.bottom ∧ 0 ≤ t ∧ t ≤ s.top ∧ b - t ≤ s.current.capacity
  | .pushGrow _ b t a => a = s.array ∧ b = s.bottom ∧ 0 ≤ t ∧ t ≤ s.top ∧ b - t ≤ s.current.capacity
  | .pushPublish _ b a => a < s.allocated ∧ b = s.bottom ∧ b - s.top < (s.arrays a).capacity ∧
      ∀ i, s.top ≤ i → i < b → (s.arrays a).load i = s.current.load i
  | .pushStore _ b a => a = s.array ∧ b = s.bottom ∧ b - s.top < s.current.capacity
  | .pushDone item b => b = s.bottom ∧ b - s.top < s.current.capacity ∧
      s.current.load b = item
  | .popArray b => s.bottom = b + 1
  | .popStore b a => s.bottom = b + 1 ∧ a = s.array
  | .popTop b a => s.bottom = b ∧ a = s.array
  | .popTake b a t => s.bottom = b ∧ a = s.array ∧ t ≤ b ∧ t ≤ s.top
  | .popCas b t out => s.bottom = b ∧ t = b ∧ t ≤ s.top ∧ (s.top = t → out = s.current.load b)
  | .popWon b _ => s.bottom = b ∧ s.top = b + 1
  | .popLost b => s.bottom = b ∧ s.top = b + 1

/-- What a thief can rely on: as long as `top_` is what it loaded, its item is there and stays
    as it is. -/
def ThiefOk (s : State Θ T) : ThiefPc T → Prop
  | .idle | .top => True
  | .bottom t => t ≤ s.top
  | .array t => t ≤ s.top ∧ (t = s.top → t < s.reach)
  | .take t a => t ≤ s.top ∧ a < s.allocated ∧
      (t = s.top → t < s.reach ∧ (s.arrays a).load t = s.current.load t)
  | .cas t out => t ≤ s.top ∧ (t = s.top → t < s.reach ∧ out = s.current.load t)

structure Inv (s : State Θ T) : Prop where
  low : 0 ≤ s.top
  order : s.top ≤ s.reach
  room : s.limit - s.top ≤ s.current.capacity
  pos : 0 < s.current.capacity
  known : s.array < s.allocated
  owner : OwnerOk s s.owner
  thief : ∀ θ, ThiefOk s (s.thief θ)

theorem inv_init [Inhabited T] {capacity : Nat} (hcap : 0 < capacity) :
    Inv (init Θ T capacity) where
  low := Int.le_refl 0
  order := Int.le_refl 0
  room := Int.natCast_nonneg capacity
  pos := hcap
  known := Nat.zero_lt_one
  owner := trivial
  thief := fun _ => trivial

section Steps

variable {s s' : State Θ T}

theorem OwnerPc.reach_le_limit (p : OwnerPc T) (bottom : Int) :
    p.reach bottom ≤ p.limit bottom := by
  cases p with
  | popTake b a t =>
    show (if t = b then b + 1 else b) ≤ b + 1
    split <;> omega
  | _ => exact Int.le_refl _

/-- What a thief relies on depends on `top_`, on the reach and on the item at the top. -/
theorem ThiefOk.frame {p : ThiefPc T} (h : ThiefOk s p) (htop : s.top ≤ s'.top)
    (halloc : s.allocated ≤ s'.allocated)
    (hkeep : s'.top = s.top → s.top < s.reach → s.top < s'.reach ∧
      s'.current.load s.top = s.current.load s.top ∧
      ∀ a, a < s.allocated → (s.arrays a).load s.top = s.current.load s.top →
        (s'.arrays a).load s.top = s.current.load s.top) : ThiefOk s' p := by
  cases p with
  | idle | top => trivial
  | bottom t => exact Int.le_trans h htop
  | array t =>
    obtain ⟨hle, hat⟩ := h
    refine ⟨Int.le_trans hle htop, fun heq => ?_⟩
    have ht : t = s.top := by omega
    subst ht
    exact (hkeep heq.symm (hat rfl)).1
  | take t a =>
    obtain ⟨hle, ha, hat⟩ := h
    refine ⟨Int.le_trans hle htop, Nat.lt_of_lt_of_le ha halloc, fun heq => ?_⟩
    have ht : t = s.top := by omega
    subst ht
    obtain ⟨hlt, hload⟩ := hat rfl
    obtain ⟨hlt', hcur, harr⟩ := hkeep heq.symm hlt
    exact ⟨hlt', (harr a ha hload).trans hcur.symm⟩
  | cas t out =>
    obtain ⟨hle, hat⟩ := h
    refine ⟨Int.le_trans hle htop, fun heq => ?_⟩
    have ht : t = s.top := by omega
    subst ht
    obtain ⟨hlt, hout⟩ := hat rfl
    obtain ⟨hlt', hcur, -⟩ := hkeep heq.symm hlt
    exact ⟨hlt', hout.trans hcur.symm⟩

/-! ## Steps of the owner -/

/-- The owner goes on, and perhaps stores `bottom_`. -/
theorem Inv.move (h : Inv s) {p : OwnerPc T} {bottom : Int} (horder : s.top ≤ p.reach bottom)
    (hreach : s.top < s.reach → s.top < p.reach bottom)
    (hroom : p.limit bottom - s.top ≤ s.current.capacity)
    (hok : OwnerOk { s with bottom := bottom, owner := p } p) :
    Inv { s with bottom := bottom, owner := p } where
  low := h.low
  order := horder
  room := hroom
  pos := h.pos
  known := h.known
  owner := hok
  thief := fun θ => (h.thief θ).frame (Int.le_refl _) (Nat.le_refl _)
    fun _ hlt => ⟨hreach hlt, rfl, fun _ _ hload => hload⟩

/-- The same where neither the limit nor the reach changes: the items stay. -/
theorem Inv.quiet (h : Inv s) {p p' : OwnerPc T} {bottom : Int} (hp : s.owner = p)
    (hlimit : p'.limit bottom = p.limit s.bottom) (hreach : p'.reach bottom = p.reach s.bottom)
    (hok : OwnerOk { s with bottom := bottom, owner := p' } p') :
    Inv { s with bottom := bottom, owner := p' } ∧
      s.contents = State.contents { s with bottom := bottom, owner := p' } := by
  obtain rfl := hp
  refine ⟨h.move (hreach ▸ h.order) (fun hlt => hreach ▸ hlt) (hlimit ▸ h.room) hok, ?_⟩
  show segment s.current.load s.top s.limit = segment s.current.load s.top (p'.limit bottom)
  rw [hlimit]
  rfl

/-- A new array is filled. -/
theorem Inv.grow [Inhabited T] (h : Inv s) {item : T} {b t : Int} {a : Nat}
    (hp : s.owner = .pushGrow item b t a) :
    Inv { s with
      arrays := update s.arrays s.allocated ((s.arrays a).grow t b)
      allocated := s.allocated + 1
      owner := .pushPublish item b s.allocated } ∧
      s.contents = State.contents { s with
        arrays := update s.arrays s.allocated ((s.arrays a).grow t b)
        allocated := s.allocated + 1
        owner := .pushPublish item b s.allocated } := by
  obtain ⟨rfl, rfl, ht, hle, hfits⟩ : OwnerOk s (.pushGrow item b t a) := hp ▸ h.owner
  have hlimit : s.limit = s.bottom := by rw [State.limit, hp]; rfl
  have hreach : s.reach = s.bottom := by rw [State.reach, hp]; rfl
  have horder := h.order
  have hroom := h.room
  have hpos := h.pos
  -- the arrays that existed before are as they were
  have hold : ∀ a, a < s.allocated → update s.arrays s.allocated
      ((s.arrays s.array).grow t s.bottom) a = s.arrays a :=
    fun a ha => update_of_ne (by omega) ..
  have hcur : (State.current { s with
      arrays := update s.arrays s.allocated ((s.arrays s.array).grow t s.bottom)
      allocated := s.allocated + 1
      owner := .pushPublish item s.bottom s.allocated }) = s.current := hold _ h.known
  refine ⟨⟨h.low, hreach ▸ horder, ?_, ?_, Nat.lt_succ_of_lt h.known, ?_, fun θ => ?_⟩, ?_⟩
  · rw [hcur]
    exact hlimit ▸ hroom
  · rw [hcur]
    exact hpos
  · refine ⟨Nat.lt_succ_self _, rfl, ?_, fun i hi hlt => ?_⟩
    · show s.bottom - s.top < ((update s.arrays s.allocated _ s.allocated).capacity : Int)
      rw [update_self, CircularArray.capacity_grow]
      show s.bottom - s.top < ((s.current.capacity * 2 : Nat) : Int)
      omega
    · show (update s.arrays s.allocated _ s.allocated).load i = _
      rw [hcur, update_self]
      exact CircularArray.load_grow ht hfits (Int.le_trans hle hi) hlt
  · refine (h.thief θ).frame (Int.le_refl _) (Nat.le_succ _) fun _ hlt => ?_
    refine ⟨hreach ▸ hlt, by rw [hcur], fun a ha hload => ?_⟩
    show (update s.arrays s.allocated _ a).load s.top = _
    rw [hold a ha]
    exact hload
  · rw [State.contents, State.contents, hcur, hlimit]
    rfl

/-- The new array is published. -/
theorem Inv.publish (h : Inv s) {item : T} {b : Int} {a : Nat}
    (hp : s.owner = .pushPublish item b a) :
    Inv { s with array := a, owner := .pushStore item b a } ∧
      s.contents = State.contents { s with array := a, owner := .pushStore item b a } := by
  obtain ⟨ha, rfl, hfits, hsame⟩ : OwnerOk s (.pushPublish item b a) := hp ▸ h.owner
  have hlimit : s.limit = s.bottom := by rw [State.limit, hp]; rfl
  have hreach : s.reach = s.bottom := by rw [State.reach, hp]; rfl
  have horder := h.order
  rw [hreach] at horder
  refine ⟨⟨h.low, horder, Int.le_of_lt hfits, ?_, ha, ⟨rfl, rfl, hfits⟩, fun θ => ?_⟩, ?_⟩
  · show 0 < (s.arrays a).capacity
    omega
  · refine (h.thief θ).frame (Int.le_refl _) (Nat.le_refl _) fun _ hlt => ?_
    rw [hreach] at hlt
    exact ⟨hlt, hsame _ (Int.le_refl _) hlt, fun _ _ hload => hload⟩
  · rw [State.contents, State.contents, hlimit]
    exact (segment_congr hsame).symm

/-- The item is stored, outside of the window. -/
theorem Inv.store (h : Inv s) {item : T} {b : Int} {a : Nat} (hp : s.owner = .pushStore item b a) :
    Inv { s with
      arrays := update s.arrays a ((s.arrays a).store b item)
      owner := .pushDone item b } ∧
      s.contents = State.contents { s with
        arrays := update s.arrays a ((s.arrays a).store b item)
        owner := .pushDone item b } := by
  obtain ⟨rfl, rfl, hfits⟩ : OwnerOk s (.pushStore item b a) := hp ▸ h.owner
  have hlimit : s.limit = s.bottom := by rw [State.limit, hp]; rfl
  have hreach : s.reach = s.bottom := by rw [State.reach, hp]; rfl
  have hlow := h.low
  have horder := h.order
  rw [hreach] at horder
  have hcur : (State.current { s with
      arrays := update s.arrays s.array ((s.arrays s.array).store s.bottom item)
      owner := .pushDone item s.bottom }) = s.current.store s.bottom item :=
    update_self ..
  have hkeep : ∀ i, s.top ≤ i → i < s.bottom →
      (s.current.store s.bottom item).load i = s.current.load i := by
    intro i hi hlt
    exact CircularArray.load_store_of_ne (by omega) (by omega) (by omega) (by omega) (by omega)
  refine ⟨⟨hlow, horder, ?_, ?_, h.known, ⟨rfl, ?_, ?_⟩, fun θ => ?_⟩, ?_⟩
  · rw [hcur]
    exact hlimit ▸ h.room
  · rw [hcur]
    exact h.pos
  · rw [hcur]
    exact hfits
  · rw [hcur]
    exact CircularArray.load_store_self
  · refine (h.thief θ).frame (Int.le_refl _) (Nat.le_refl _) fun _ hlt => ?_
    rw [hreach] at hlt
    have htop := hkeep _ (Int.le_refl _) hlt
    refine ⟨hlt, by rw [hcur]; exact htop, fun a _ hload => ?_⟩
    rcases eq_or_ne a s.array with rfl | hne
    · show (update s.arrays s.array _ s.array).load s.top = _
      rw [update_self]
      exact htop
    · show (update s.arrays s.array _ a).load s.top = _
      rw [update_of_ne hne]
      exact hload
  · rw [State.contents, State.contents, hcur, hlimit]
    exact (segment_congr hkeep).symm

/-- **`top_` is incremented**: the owner's knowledge survives. -/
theorem OwnerOk.steal {p : OwnerPc T} (h : OwnerOk s p) (hlt : s.top < p.reach s.bottom)
    (θs : Θ → ThiefPc T) : OwnerOk { s with top := s.top + 1, thief := θs } p := by
  cases p with
  | idle | pushBottom _ | popBottom => trivial
  | pushTop _ _ | popArray _ | popStore _ _ | popTop _ _ => exact h
  | pushArray _ b t =>
    obtain ⟨hb, ht, hle, hfits⟩ := h
    exact ⟨hb, ht, Int.le_trans hle (by show s.top ≤ s.top + 1; omega), hfits⟩
  | pushGrow _ b t a =>
    obtain ⟨ha, hb, ht, hle, hfits⟩ := h
    exact ⟨ha, hb, ht, Int.le_trans hle (by show s.top ≤ s.top + 1; omega), hfits⟩
  | pushPublish _ b a =>
    obtain ⟨ha, hb, hfits, hsame⟩ := h
    refine ⟨ha, hb, ?_, fun i hi => hsame i ?_⟩
    · show b - (s.top + 1) < ((s.arrays a).capacity : Int)
      omega
    · have hi : s.top + 1 ≤ i := hi
      omega
  | pushStore _ b a =>
    obtain ⟨ha, hb, hfits⟩ := h
    refine ⟨ha, hb, ?_⟩
    show b - (s.top + 1) < (s.current.capacity : Int)
    omega
  | pushDone item b =>
    obtain ⟨hb, hfits, hitem⟩ := h
    refine ⟨hb, ?_, hitem⟩
    show b - (s.top + 1) < (s.current.capacity : Int)
    omega
  | popTake b a t =>
    obtain ⟨hb, ha, htb, hle⟩ := h
    exact ⟨hb, ha, htb, Int.le_trans hle (by show s.top ≤ s.top + 1; omega)⟩
  | popCas b t out =>
    obtain ⟨hb, rfl, hle, -⟩ := h
    refine ⟨hb, rfl, Int.le_trans hle (by show s.top ≤ s.top + 1; omega), fun heq => ?_⟩
    have heq : s.top + 1 = t := heq
    omega
  | popWon b out | popLost b =>
    obtain ⟨-, htop⟩ := h
    have hlt : s.top < b + 1 := hlt
    omega

/-- The item at the top is taken. -/
theorem Inv.steal (h : Inv s) (hlt : s.top < s.reach) (θs : Θ → ThiefPc T)
    (hθ : ∀ θ, θs θ = .idle ∨ θs θ = s.thief θ) :
    Inv { s with top := s.top + 1, thief := θs } where
  low := by have := h.low; show 0 ≤ s.top + 1; omega
  order := by show s.top + 1 ≤ s.reach; omega
  room := by
    have hroom := h.room
    show s.limit - (s.top + 1) ≤ (s.current.capacity : Int)
    omega
  pos := h.pos
  known := h.known
  owner := h.owner.steal hlt θs
  thief := by
    intro θ
    show ThiefOk _ (θs θ)
    rcases hθ θ with hidle | hsame
    · rw [hidle]
      trivial
    · rw [hsame]
      refine (h.thief θ).frame (by show s.top ≤ s.top + 1; omega) (Nat.le_refl _) fun heq _ => ?_
      have heq : s.top + 1 = s.top := heq
      omega

/-- The first item is the one at `top_`. -/
theorem contents_steal (θs : Θ → ThiefPc T) (hlt : s.top < s.limit) :
    s.contents = s.current.load s.top ::
      State.contents { s with top := s.top + 1, thief := θs } := segment_cons hlt

/-- The item counts from the store of `bottom_` on. -/
theorem Inv.pushed (h : Inv s) {item : T} {b : Int} (hp : s.owner = .pushDone item b) :
    Inv { s with bottom := b + 1, owner := .idle } ∧
      State.contents { s with bottom := b + 1, owner := .idle } = s.contents ++ [item] := by
  obtain ⟨rfl, hfits, hitem⟩ : OwnerOk s (.pushDone item b) := hp ▸ h.owner
  have hlimit : s.limit = s.bottom := by rw [State.limit, hp]; rfl
  have hreach : s.reach = s.bottom := by rw [State.reach, hp]; rfl
  have horder := h.order
  rw [hreach] at horder
  refine ⟨h.move ?_ (fun _ => ?_) ?_ trivial, ?_⟩
  · show s.top ≤ s.bottom + 1
    omega
  · show s.top < s.bottom + 1
    omega
  · show s.bottom + 1 - s.top ≤ (s.current.capacity : Int)
    omega
  · show segment s.current.load s.top (s.bottom + 1) =
      segment s.current.load s.top s.limit ++ [item]
    rw [hlimit, ← hitem]
    exact segment_concat horder

/-- With more than one item seen, `pop` takes the last one without an exchange. -/
theorem Inv.popped (h : Inv s) {b t : Int} {a : Nat} (hp : s.owner = .popTake b a t)
    (hmore : t ≠ b) :
    Inv { s with owner := .idle } ∧
      s.contents = State.contents { s with owner := .idle } ++ [(s.arrays a).load b] := by
  obtain ⟨hb, rfl, htb, hle⟩ : OwnerOk s (.popTake b a t) := hp ▸ h.owner
  have hlimit : s.limit = b + 1 := by rw [State.limit, hp]; rfl
  have hreach : s.reach = b := by rw [State.reach, hp]; exact if_neg hmore
  have horder := h.order
  have hroom := h.room
  rw [hreach] at horder
  refine ⟨h.move ?_ ?_ ?_ trivial, ?_⟩
  · show s.top ≤ s.bottom
    omega
  · rw [hreach, ← hb]
    exact id
  · show s.bottom - s.top ≤ (s.current.capacity : Int)
    omega
  · show segment s.current.load s.top s.limit = segment s.current.load s.top s.bottom ++ _
    rw [hlimit, hb]
    exact segment_concat horder

/-- The exchange of `pop` succeeds: the item was the only one. -/
theorem Inv.won (h : Inv s) {b t : Int} {out : T} (hp : s.owner = .popCas b t out)
    (hwon : s.top = t) :
    Inv { s with top := t + 1, owner := .popWon b out } ∧ s.contents = [out] ∧
      State.contents { s with top := t + 1, owner := .popWon b out } = [] := by
  obtain ⟨hb, rfl, -, hout⟩ : OwnerOk s (.popCas b t out) := hp ▸ h.owner
  have hlimit : s.limit = t + 1 := by rw [State.limit, hp]; rfl
  have hlow := h.low
  refine ⟨⟨?_, Int.le_refl _, ?_, h.pos, h.known, ⟨hb, rfl⟩, fun θ => ?_⟩, ?_, ?_⟩
  · show 0 ≤ t + 1
    omega
  · show t + 1 - (t + 1) ≤ (s.current.capacity : Int)
    omega
  · refine (h.thief θ).frame ?_ (Nat.le_refl _) fun heq => ?_
    · show s.top ≤ t + 1
      omega
    · have heq : t + 1 = s.top := heq
      omega
  · rw [State.contents, hlimit, segment_cons (by omega), segment_nil (by omega), hwon, hout hwon]
  · exact segment_nil (Int.le_refl _)

/-- **A step of the owner** keeps the invariant and does to the items what it shows. -/
theorem OwnerMove.refines [Inhabited T] {o : Option (Event T)} (hm : OwnerMove s o s') (h : Inv s) :
    (dequeSpec T).Matches (fun q s => Inv s ∧ q = s.contents) s.contents s' o := by
  have hok := h.owner
  cases hm with
  | pushBottom hp => exact h.quiet hp rfl rfl rfl
  | @pushTop item b hp =>
    have hroom := h.room
    rw [hp] at hok
    rw [State.limit, hp] at hroom
    obtain rfl : b = s.bottom := hok
    exact h.quiet hp rfl rfl ⟨rfl, h.low, Int.le_refl _, hroom⟩
  | pushFull hp hfull =>
    rw [hp] at hok
    exact h.quiet hp rfl rfl ⟨rfl, hok⟩
  | @pushFits item b t hp hfits =>
    rw [hp] at hok
    obtain ⟨hb, -, hle, -⟩ := hok
    refine h.quiet hp rfl rfl ⟨rfl, hb, ?_⟩
    show b - s.top < ((s.arrays s.array).capacity : Int)
    omega
  | grow hp => exact h.grow hp
  | publish hp => exact h.publish hp
  | store hp => exact h.store hp
  | pushed hp =>
    obtain ⟨hinv, hitems⟩ := h.pushed hp
    exact ⟨_, hitems, hinv, rfl⟩
  | popBottom hp =>
    have hb : s.bottom - 1 + 1 = s.bottom := by omega
    exact h.quiet hp hb hb hb.symm
  | popArray hp =>
    rw [hp] at hok
    exact h.quiet hp rfl rfl ⟨hok, rfl⟩
  | popStore hp =>
    rw [hp] at hok
    exact h.quiet hp rfl rfl ⟨rfl, hok.2⟩
  | @popSome b a hp hsome =>
    rw [hp] at hok
    have hroom := h.room
    rw [State.limit, hp] at hroom
    have hreach : (OwnerPc.popTake b a s.top : OwnerPc T).reach s.bottom =
        if s.top = b then b + 1 else b := rfl
    refine ⟨h.move ?_ (fun _ => ?_) hroom ⟨hok.1, hok.2, hsome, Int.le_refl _⟩, ?_⟩
    · rw [hreach]
      split <;> omega
    · rw [hreach]
      split <;> omega
    · rw [State.contents, State.limit, hp]
      rfl
  | @popEmpty b a hp hempty =>
    rw [hp] at hok
    have horder := h.order
    rw [State.reach, hp] at horder
    have horder : s.top ≤ b + 1 := horder
    refine h.quiet hp rfl rfl ⟨hok.1, ?_⟩
    show s.top = b + 1
    omega
  | popLast hp hlast =>
    rw [hp] at hok
    obtain ⟨hb, rfl, -, hle⟩ := hok
    exact h.quiet hp rfl (if_pos hlast).symm ⟨hb, hlast, hle, fun _ => rfl⟩
  | popped hp hmore =>
    obtain ⟨hinv, hitems⟩ := h.popped hp hmore
    exact ⟨_, hitems, hinv, rfl⟩
  | won hp hwon =>
    obtain ⟨hinv, hitems, hleft⟩ := h.won hp hwon
    exact ⟨[], hitems, hinv, hleft.symm⟩
  | @lost b t out hp hlost =>
    rw [hp] at hok
    obtain ⟨hb, rfl, hle, -⟩ := hok
    have horder := h.order
    rw [State.reach, hp] at horder
    have horder : s.top ≤ t + 1 := horder
    refine h.quiet hp rfl rfl ⟨hb, ?_⟩
    show s.top = t + 1
    omega
  | wonDone hp | lostDone hp => exact h.quiet hp rfl rfl trivial

/-! ## Steps of the thieves -/

variable [DecidableEq Θ] {θ : Θ}

theorem Inv.thiefGoes (h : Inv s) {p : ThiefPc T} (hok : ThiefOk s p) : Inv (s.setThief θ p) where
  low := h.low
  order := h.order
  room := h.room
  pos := h.pos
  known := h.known
  owner := by
    have hsame : ∀ p, OwnerOk (s.setThief θ p) s.owner = OwnerOk s s.owner := by
      intro p
      cases s.owner <;> rfl
    exact (hsame p).mpr h.owner
  thief := by
    intro θ'
    have hframe : ∀ q : ThiefPc T, ThiefOk s q → ThiefOk (s.setThief θ p) q := fun q hq =>
      hq.frame (Int.le_refl _) (Nat.le_refl _) fun _ hlt => ⟨hlt, rfl, fun _ _ hload => hload⟩
    exact forall_update (P := fun _ q => ThiefOk (s.setThief θ p) q)
      (fun θ' => hframe _ (h.thief θ')) (hframe _ hok) θ'

omit [DecidableEq Θ] in
/-- What `bottom_` still covers is in reach of the thieves. -/
theorem Inv.bottom_le_reach (h : Inv s) : s.bottom ≤ s.reach := by
  have hok := h.owner
  rw [State.reach]
  generalize hp : s.owner = p at hok ⊢
  cases p with
  | popArray b | popStore b a =>
    show s.bottom ≤ b + 1
    grind [OwnerOk]
  | popTop b a | popCas b t out | popWon b out | popLost b =>
    have hb : s.bottom = b := hok.1
    show s.bottom ≤ b + 1
    omega
  | popTake b a t =>
    have hb : s.bottom = b := hok.1
    show s.bottom ≤ if t = b then b + 1 else b
    split <;> omega
  | _ => exact Int.le_refl _

/-- **A step of a thief** keeps the invariant and does to the items what it shows. -/
theorem ThiefMove.refines {o : Option (Event T)} (hm : ThiefMove s θ o s') (h : Inv s) :
    (dequeSpec T).Matches (fun q s => Inv s ∧ q = s.contents) s.contents s' o := by
  have hok := h.thief θ
  cases hm with
  | top hp => exact ⟨h.thiefGoes (Int.le_refl s.top), rfl⟩
  | @some t hp hsome =>
    rw [hp] at hok
    exact ⟨h.thiefGoes ⟨hok, fun heq => Int.lt_of_lt_of_le hsome h.bottom_le_reach⟩, rfl⟩
  | array hp =>
    rw [hp] at hok
    exact ⟨h.thiefGoes ⟨hok.1, h.known, fun heq => ⟨hok.2 heq, rfl⟩⟩, rfl⟩
  | take hp =>
    rw [hp] at hok
    obtain ⟨hle, -, hat⟩ := hok
    exact ⟨h.thiefGoes ⟨hle, fun heq => hat heq⟩, rfl⟩
  | @stolen t out hp hwon =>
    rw [hp] at hok
    obtain ⟨-, hat⟩ := hok
    obtain ⟨hlt, hout⟩ := hat hwon.symm
    obtain rfl := hwon
    have hlimit : s.top < s.limit := Int.lt_of_lt_of_le hlt (s.owner.reach_le_limit _)
    refine ⟨_, ?_, h.steal hlt _ fun θ' => ?_, rfl⟩
    · exact hout ▸ contents_steal _ hlimit
    · rcases eq_or_ne θ' θ with rfl | hne
      · exact .inl (update_self ..)
      · exact .inr (update_of_ne hne ..)
  | none => exact ⟨h.thiefGoes trivial, rfl⟩

end Steps

/-! ## Runs -/

variable [Inhabited T] [DecidableEq Θ] {s : State Θ T} {t : List (Event T)}

theorem step_refines {s s' : State Θ T} (a : Act Θ T) (h : Inv s) (hs : step s a = some s') :
    (dequeSpec T).Matches (fun q s => Inv s ∧ q = s.contents) s.contents s' (event s a) := by
  cases a with
  | push item | pop =>
    simp only [step] at hs
    split at hs
    · rename_i hp
      cases hs
      exact h.quiet hp rfl rfl trivial
    · cases hs
  | goOwner => exact (owner_moves hs).refines h
  | steal θ =>
    simp only [step] at hs
    split at hs
    · cases hs
      exact ⟨h.thiefGoes trivial, rfl⟩
    · cases hs
  | goThief θ => exact (thief_moves hs).refines h

/-- **Each item is returned exactly once.**  In every run of the owner and any number of
    thieves, the calls took effect one after the other as on a list `q`, from the start to
    now: `push` appends, `pop` takes the last item and `steal` the first.  So each pushed item
    is returned by one `pop`, or by one `steal`, or is still in `q`; the steals come in push
    order; and when the owner is between calls, `q` is what lies between `top_` and
    `bottom_`. -/
theorem items_handed_out_once {capacity : Nat} (hcap : 0 < capacity)
    (h : Exec machine Always (init Θ T capacity) t s) :
    ∃ q, (dequeSpec T).Accepts t q ∧ pushes t ~ pops t ++ (steals t ++ q) ∧
      steals t ++ q <+ pushes t ∧
      (s.owner = .idle → q = segment s.current.load s.top s.bottom) := by
  obtain ⟨q, hacc, -, hq⟩ := h.simulates (dequeSpec T) (fun q s => Inv s ∧ q = s.contents)
    ⟨inv_init hcap, (segment_nil (Int.le_refl 0)).symm⟩
    fun _ s a s' hR hs => hR.2 ▸ step_refines a hR.1 hs
  refine ⟨q, hacc, accepts_perm hacc, accepts_sublist hacc, fun hidle => ?_⟩
  rw [hq, State.contents, State.limit, hidle]
  rfl

/-- Two items are pushed, for which the array has to grow; a thief is about to take the first
    when the owner pops the second. -/
def raceForTheFirst : List (Act Unit Nat) :=
  [.push 10] ++ List.replicate 5 .goOwner ++ [.push 20] ++ List.replicate 7 .goOwner ++
    [.steal (), .goThief (), .goThief (), .pop] ++ List.replicate 3 .goOwner ++
    List.replicate 3 (.goThief ()) ++ List.replicate 4 .goOwner

/-- Both get an item. -/
theorem race_items_handed_out : ∃ t s, Exec machine Always (init Unit Nat 1) t s ∧
    pushes t = [10, 20] ∧ steals t = [10] ∧ pops t = [20] ∧ s.owner = .idle ∧
    ∃ q, (dequeSpec Nat).Accepts t q ∧ pushes t ~ pops t ++ (steals t ++ q) ∧
      steals t ++ q <+ pushes t ∧
      (s.owner = .idle → q = segment s.current.load s.top s.bottom) := by
  have hexec : Exec machine Always (init Unit Nat 1) _ _ :=
    exec_run raceForTheFirst
  exact ⟨_, _, hexec, by decide +kernel, by decide +kernel, by decide +kernel,
    by decide +kernel, items_handed_out_once Nat.zero_lt_one hexec⟩

end ChaseLev
