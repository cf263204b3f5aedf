/-
Memories that keep account of what is read and written.

* **`Traced.within_read`**, **`Traced.within_write`** — what one access adds to the
  account; the rest of an account stays as it is.
-/
import T4P4S.Lib.ByteString

namespace ByteString

variable {β : Type*}

/-- A memory, and the blocks that were read or written, each as an offset and a length. -/
structure Traced (β : Type*) where
  mem : ℕ → β
  touched : List (ℕ × ℕ) := []

namespace Traced

variable (t : Traced β)

def read (off n : ℕ) : List β × Traced β :=
  (slice t.mem off n, { t with touched := (off, n) :: t.touched })

def write (w : Write β) : Traced β :=
  ⟨w.run t.mem, (w.off, w.data.length) :: t.touched⟩

/-- All that was read or written lies below `k`. -/
def Within (k : ℕ) : Prop := ∀ b ∈ t.touched, b.1 + b.2 ≤ k

@[simp] theorem read_fst (off n : ℕ) : (t.read off n).1 = slice t.mem off n := rfl

@[simp] theorem read_mem (off n : ℕ) : (t.read off n).2.mem = t.mem := rfl

@[simp] theorem within_read {off n k : ℕ} :
    (t.read off n).2.Within k ↔ off + n ≤ k ∧ t.Within k := List.forall_mem_cons

@[simp] theorem within_write {w : Write β} {k : ℕ} :
    (t.write w).Within k ↔ w.off + w.data.length ≤ k ∧ t.Within k := List.forall_mem_cons

@[simp] theorem within_mk (m : ℕ → β) (k : ℕ) : (⟨m, []⟩ : Traced β).Within k :=
  fun _ hb => absurd hb List.not_mem_nil

end Traced

end ByteString
