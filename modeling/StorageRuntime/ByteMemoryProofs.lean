import StorageRuntime.IntrusiveChainProofs
import StorageRuntime.WordArithmeticProofs
import StorageRuntime.RegionProofs

/-!
# Byte memory — words, and lists threaded through freed blocks

The memory of a process, byte by byte, with little-endian words.  `load64` reads
eight bytes and `store64` writes eight; what they have to do with each other is
said in terms of regions: `load64_store64` for the same word, `load64_congr` for
a memory that agrees on the word's bytes.

`Linked mem off head l` is a singly linked list threaded through the memory: the
nodes `l` are visited from `head` by following the word at offset `off` of each
node, up to the null pointer.
-/

namespace ByteMemory

open Function WordArithmetic IntrusiveChain Regions

/-- One byte for every address. -/
abbrev Memory := Nat → UInt8

/-- The number in the `n` bytes from address `a`. -/
def load (m : Memory) : Nat → Nat → Nat
  | _, 0 => 0
  | a, n + 1 => (m a).toNat + 256 * load m (a + 1) n

/-- Write the number `v` to the `n` bytes from address `a`. -/
def store (m : Memory) : Nat → Nat → Nat → Memory
  | _, 0, _ => m
  | a, n + 1, v => store (update m a (UInt8.ofNat v)) (a + 1) n (v / 256)

/-- The word at address `a`. -/
def load64 (m : Memory) (a : Nat) : Nat := load m a 8

/-- Write the word `v` to address `a`. -/
def store64 (m : Memory) (a v : Nat) : Memory := store m a 8 v

/-- The two memories agree on the bytes of `r`. -/
def AgreeOn (r : Region) (m m' : Memory) : Prop := ∀ x, r.Has x → m' x = m x

theorem AgreeOn.mono {r q : Region} {m m' : Memory} (h : AgreeOn q m m')
    (hw : Within r q) : AgreeOn r m m' := fun x hx => h x (hw.has hx)

/-- A store leaves every byte outside its range. -/
theorem store_of_not_has (n : Nat) : ∀ (m : Memory) (a v x : Nat),
    ¬ (⟨a, n⟩ : Region).Has x → store m a n v x = m x := by
  induction n with
  | zero => intro m a v x _; rfl
  | succ n ih =>
    intro m a v x hx
    simp only [Region.Has] at hx ih
    rw [store, ih _ _ _ _ (by omega), update_of_ne (by omega)]

/-- A load reads only its range. -/
theorem load_congr (n : Nat) : ∀ (m m' : Memory) (a : Nat),
    AgreeOn ⟨a, n⟩ m m' → load m' a n = load m a n := by
  induction n with
  | zero => intro m m' a _; rfl
  | succ n ih =>
    intro m m' a h
    have htail : AgreeOn ⟨a + 1, n⟩ m m' := h.mono (by simp only [Within]; omega)
    have hhead : m' a = m a := h a (by simp only [Region.Has]; omega)
    rw [load, load, hhead, ih m m' (a + 1) htail]

/-- A load of what was just stored. -/
theorem load_store (n : Nat) : ∀ (m : Memory) (a v : Nat), v < 256 ^ n →
    load (store m a n v) a n = v := by
  induction n with
  | zero =>
    intro m a v hv
    rw [load]
    omega
  | succ n ih =>
    intro m a v hv
    have hbyte : store (update m a (UInt8.ofNat v)) (a + 1) n (v / 256) a =
        UInt8.ofNat v := by
      rw [store_of_not_has _ _ _ _ _ (by simp only [Region.Has]; omega), update_self]
    have hrest : v / 256 < 256 ^ n := by
      omega
    rw [store, load, hbyte, ih _ _ _ hrest, UInt8.toNat_ofNat']
    omega

theorem load64_store64 (m : Memory) (a : Nat) {v : Nat} (hv : v < wordSize) :
    load64 (store64 m a v) a = v :=
  load_store 8 m a v hv

/-- Writing back what is there changes nothing. -/
theorem store_load (n : Nat) : ∀ (m : Memory) (a : Nat), store m a n (load m a n) = m := by
  induction n with
  | zero => intro m a; rfl
  | succ n ih =>
    intro m a
    have hlow : UInt8.ofNat ((m a).toNat + 256 * load m (a + 1) n) = m a := by
      refine UInt8.toNat_inj.mp ?_
      have hbyte := (m a).toNat_lt
      rw [UInt8.toNat_ofNat']
      omega
    have hhigh : ((m a).toNat + 256 * load m (a + 1) n) / 256 = load m (a + 1) n := by
      have hbyte := (m a).toNat_lt
      omega
    rw [load, store, hlow, hhigh, update_eq_self]
    exact ih m (a + 1)

theorem store64_load64 (m : Memory) (a : Nat) : store64 m a (load64 m a) = m :=
  store_load 8 m a

theorem load_lt (n : Nat) : ∀ (m : Memory) (a : Nat), load m a n < 256 ^ n := by
  induction n with
  | zero => intro m a; exact Nat.zero_lt_one
  | succ n ih =>
    intro m a
    have hbyte := (m a).toNat_lt
    have htail := ih m (a + 1)
    rw [load, Nat.pow_succ]
    omega

theorem load64_lt (m : Memory) (a : Nat) : load64 m a < wordSize := load_lt 8 m a

theorem load64_congr {m m' : Memory} {a : Nat} (h : AgreeOn ⟨a, 8⟩ m m') :
    load64 m' a = load64 m a :=
  load_congr 8 m m' a h

/-- A stored word leaves every region clear of it. -/
theorem agreeOn_store64 {m : Memory} {a v : Nat} {r : Region}
    (h : Clear ⟨a, 8⟩ r) : AgreeOn r m (store64 m a v) :=
  fun x hx => store_of_not_has 8 m a v x (h.symm.not_has hx)

/-! ## Lists threaded through the memory -/

/-- A pointer that may be null. -/
def pointer (w : Nat) : Option Nat := if w = 0 then none else some w

theorem pointer_eq_some {w a : Nat} : pointer w = some a ↔ w = a ∧ 0 < a := by
  rw [pointer]
  split
  · simp only [reduceCtorEq, false_iff, not_and, Nat.not_lt]
    omega
  · simp only [Option.some.injEq]
    omega

theorem pointer_eq_none {w : Nat} : pointer w = none ↔ w = 0 := by
  rw [pointer]
  split <;> simp_all

/-- The link of the node at `a`: the word at offset `off`. -/
def link (m : Memory) (off a : Nat) : Option Nat := pointer (load64 m (a + off))

/-- The nodes `l` are visited from `head` by following the links. -/
def Linked (m : Memory) (off head : Nat) (l : List Nat) : Prop :=
  Chain (link m off) (pointer head) l

section Linked

variable {m m' : Memory} {off head a : Nat} {l : List Nat}

theorem linked_nil : Linked m off head [] ↔ head = 0 := pointer_eq_none

theorem linked_cons : Linked m off head (a :: l) ↔
    (head = a ∧ 0 < a) ∧ Linked m off (load64 m (a + off)) l := by
  rw [Linked, chain_cons, pointer_eq_some]
  rfl

/-- A list stays linked when the memory agrees on its link words. -/
theorem Linked.frame (h : Linked m off head l)
    (hag : ∀ a ∈ l, AgreeOn ⟨a + off, 8⟩ m m') : Linked m' off head l :=
  chain_congr (fun a ha => congrArg pointer (load64_congr (hag a ha))) h

/-- **A node is pushed**: its link word gets the old head. -/
theorem Linked.push (h : Linked m off head l) (hhead : head < wordSize) (ha : 0 < a)
    (hd : ∀ b ∈ l, Clear ⟨a + off, 8⟩ ⟨b + off, 8⟩) :
    Linked (store64 m (a + off) head) off a (a :: l) := by
  refine linked_cons.mpr ⟨⟨rfl, ha⟩, ?_⟩
  rw [load64_store64 _ _ hhead]
  exact h.frame fun b hb => agreeOn_store64 (hd b hb)

/-- **A node is unlinked**: the link word before it gets its link. -/
theorem Linked.unlink {p : Nat} {after : List Nat} : ∀ {before : List Nat} {head : Nat},
    Linked m off head (before ++ p :: a :: after) →
    (∀ b ∈ before, Clear ⟨p + off, 8⟩ ⟨b + off, 8⟩) →
    (∀ b ∈ after, Clear ⟨p + off, 8⟩ ⟨b + off, 8⟩) →
    Linked (store64 m (p + off) (load64 m (a + off))) off head (before ++ p :: after) := by
  intro before
  induction before with
  | nil =>
    intro head h _ hafter
    obtain ⟨hp, hnext⟩ := linked_cons.mp h
    obtain ⟨-, hrest⟩ := linked_cons.mp hnext
    refine linked_cons.mpr ⟨hp, ?_⟩
    rw [load64_store64 _ _ (load64_lt ..)]
    exact hrest.frame fun b hb => agreeOn_store64 (hafter b hb)
  | cons c before ih =>
    intro head h hbefore hafter
    obtain ⟨hc, hrest⟩ := linked_cons.mp h
    refine linked_cons.mpr ⟨hc, ?_⟩
    rw [load64_congr (agreeOn_store64 (hbefore c List.mem_cons_self))]
    exact ih hrest (fun b hb => hbefore b (List.mem_cons_of_mem _ hb)) hafter

/-- The head of a linked list of nodes in the address space is a word. -/
theorem Linked.head_lt (h : Linked m off head l) (hl : ∀ b ∈ l, b < wordSize) :
    head < wordSize := by
  cases l with
  | nil =>
    rw [linked_nil.mp h]
    decide
  | cons b l =>
    obtain ⟨⟨rfl, -⟩, -⟩ := linked_cons.mp h
    exact hl _ List.mem_cons_self

end Linked

end ByteMemory
