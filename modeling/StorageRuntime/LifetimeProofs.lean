/-!
# The lifetime of an object

A ledger for one object on the heap: how often it was freed, and whether anything was done
with it after that.  The good ledgers are two, `alive` and `freed`.
-/

namespace Lifetime

structure Ledger where
  frees : Nat
  misused : Bool
deriving DecidableEq, Repr

def Ledger.alive : Ledger := ⟨0, false⟩

def Ledger.freed : Ledger := ⟨1, false⟩

/-- The object is read or written. -/
def Ledger.access (l : Ledger) : Ledger := { l with misused := l.misused || decide (0 < l.frees) }

/-- The object is freed; to free it twice is a misuse. -/
def Ledger.free (l : Ledger) : Ledger := { l.access with frees := l.frees + 1 }

@[simp] theorem access_alive : Ledger.alive.access = .alive := rfl

/-- Freed at most once, and not used after that. -/
def Ledger.Sound (l : Ledger) : Prop := l.frees ≤ 1 ∧ l.misused = false

theorem sound_of_alive_or_freed {l : Ledger} (h : l = .alive ∨ l = .freed) : l.Sound := by
  rcases h with rfl | rfl
  · exact ⟨Nat.zero_le 1, rfl⟩
  · exact ⟨Nat.le_refl 1, rfl⟩

end Lifetime
