import Mathlib.Logic.Function.Basic
import Mathlib.Data.List.Nodup

/-!
# Intrusive chains — singly linked lists threaded through node memory

A lock-free stack keeps its nodes in the frames of its users: there is a
memory `next : α → Option α` (the link field of every node, whether or not
the node is linked at the moment) and a head pointer.  `Chain next p l` says
that following `next` from `p` visits exactly the nodes of `l`, in order,
and then ends.

The head is often packed into one word together with a flag bit;
`Tagged α` is such a word.
-/

namespace IntrusiveChain

variable {α : Type}

/-- A word that holds a pointer and, in its low bit, a flag. -/
structure Tagged (α : Type) where
  ptr : Option α
  tag : Bool
deriving DecidableEq, Repr

/-- The all-zero word: null pointer, flag clear. -/
def Tagged.zero : Tagged α := ⟨none, false⟩

theorem Tagged.eq_zero {w : Tagged α} (hptr : w.ptr = none) (htag : w.tag = false) : w = .zero := by
  cases w
  cases hptr
  cases htag
  rfl

/-- Following `next` from `p` visits exactly `l` and then ends. -/
def Chain (next : α → Option α) : Option α → List α → Prop
  | p, [] => p = none
  | p, a :: l => p = some a ∧ Chain next (next a) l

@[simp] theorem chain_nil (next : α → Option α) (p : Option α) :
    Chain next p [] ↔ p = none := Iff.rfl

@[simp] theorem chain_cons (next : α → Option α) (p : Option α) (a : α) (l : List α) :
    Chain next p (a :: l) ↔ p = some a ∧ Chain next (next a) l := Iff.rfl

variable {l : List α} {next : α → Option α} {a : α}

/-- A chain from null is empty. -/
theorem chain_none (h : Chain next none l) : l = [] := by
  cases l with
  | nil => rfl
  | cons a l => exact nomatch h.1

/-- A chain from a node starts with that node. -/
theorem chain_some (h : Chain next (some a) l) : ∃ l', l = a :: l' ∧ Chain next (next a) l' := by
  cases l with
  | nil => cases h
  | cons b l' =>
    obtain ⟨hb, hl⟩ := h
    obtain rfl : a = b := Option.some.inj hb
    exact ⟨l', rfl, hl⟩

/-- The chain from a pointer is determined by the memory. -/
theorem chain_unique :
    ∀ {l l' : List α} {p : Option α}, Chain next p l → Chain next p l' → l = l' := by
  intro l
  induction l with
  | nil =>
    intro l' p h h'
    subst h
    exact (chain_none h').symm
  | cons a l ih =>
    intro l' p h h'
    obtain ⟨hp, hl⟩ := h
    subst hp
    obtain ⟨l'', rfl, hl''⟩ := chain_some h'
    rw [ih hl hl'']

/-- Every node of a chain is itself the head of a chain, a suffix of the first. -/
theorem chain_suffix : ∀ {l : List α} {p : Option α}, Chain next p l → a ∈ l →
    ∃ l₁ l₂, l = l₁ ++ l₂ ∧ Chain next (some a) l₂ := by
  intro l
  induction l with
  | nil => intro p _ ha; cases ha
  | cons b l ih =>
    intro p h ha
    rcases List.mem_cons.mp ha with hab | hal
    · subst hab
      exact ⟨[], a :: l, rfl, rfl, h.2⟩
    · obtain ⟨l₁, l₂, rfl, hl₂⟩ := ih h.2 hal
      exact ⟨b :: l₁, l₂, rfl, hl₂⟩

/-- **A chain visits no node twice**: a second visit would start the same chain
    again and the walk would not end. -/
theorem chain_nodup : ∀ {l : List α} {p : Option α}, Chain next p l → l.Nodup := by
  intro l
  induction l with
  | nil => intro p _; exact List.nodup_nil
  | cons a l ih =>
    intro p h
    refine List.nodup_cons.mpr ⟨?_, ih h.2⟩
    intro ha
    obtain ⟨l₁, l₂, hl, hl₂⟩ := chain_suffix h.2 ha
    have hloop : a :: l = l₂ := chain_unique (p := some a) ⟨rfl, h.2⟩ hl₂
    have hlen : l.length = l₁.length + l₂.length := by
      rw [hl, List.length_append]
    rw [← hloop, List.length_cons] at hlen
    omega

/-- A chain depends only on the link fields of its own nodes. -/
theorem chain_congr {next' : α → Option α} :
    ∀ {l : List α} {p : Option α}, (∀ a ∈ l, next' a = next a) → Chain next p l →
    Chain next' p l := by
  intro l
  induction l with
  | nil => intro p _ h; exact h
  | cons b l ih =>
    intro p heq h
    refine ⟨h.1, ?_⟩
    rw [heq b List.mem_cons_self]
    exact ih (fun a ha => heq a (List.mem_cons_of_mem _ ha)) h.2

/-- Linking a node whose link field already points to the head. -/
theorem chain_push {p : Option α} (h : Chain next p l) (ha : next a = p) :
    Chain next (some a) (a :: l) := by
  refine ⟨rfl, ?_⟩
  rw [ha]
  exact h

end IntrusiveChain
