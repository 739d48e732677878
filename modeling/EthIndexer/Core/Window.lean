import EthIndexer.Core.Ledger

/-!
# Sliding windows

A `Window` is a stretch of consecutively numbered entries. It grows at its upper
end, is cut back from there, and is trimmed at its lower end. Pushed entries may
skip numbers; what was there before is then gone, so that the numbers stay
consecutive.

`get?_cut`, `get?_trim` and `get?_push` say what each operation does to the entry of one
number. None of them replaces an entry (`get?_apply`), so an entry that is there
throughout a run is the same at both ends (`Refines.get?_run`).
-/
namespace EthIndexer

/-- The entry below `next` is the last. -/
structure Window (α : Type) where
  next : Nat
  entries : List α
  fits : entries.length ≤ next

/-- `push skip entries`: entries from `next + skip` on; `cut n`: none from `n` on;
`trim n`: none below `n`. -/
inductive WindowOp (α : Type) where
  | push (skip : Nat) (entries : List α)
  | cut (n : Nat)
  | trim (n : Nat)

namespace Window
variable {α : Type}

/-- The number of the first entry, `next` if there is none. -/
def first (w : Window α) : Nat := w.next - w.entries.length

def get? (w : Window α) (n : Nat) : Option α :=
  if w.first ≤ n then w.entries[n - w.first]? else none

def push (w : Window α) (skip : Nat) (entries : List α) : Window α where
  next := w.next + skip + entries.length
  entries := if skip = 0 then w.entries ++ entries else entries
  fits := by
    have := w.fits
    split
    · rw [List.length_append]; omega
    · omega

def cut (w : Window α) (n : Nat) : Window α where
  next := min n w.next
  entries := w.entries.take (n - w.first)
  fits := by
    have := w.fits
    rw [List.length_take]
    omega

def trim (w : Window α) (n : Nat) : Window α where
  next := w.next
  entries := w.entries.drop (n - w.first)
  fits := by
    have := w.fits
    rw [List.length_drop]
    omega

def apply (w : Window α) : WindowOp α → Window α
  | .push skip entries => w.push skip entries
  | .cut n => w.cut n
  | .trim n => w.trim n

theorem first_add_length (w : Window α) : w.first + w.entries.length = w.next :=
  Nat.sub_add_cancel w.fits

theorem get?_isSome {w : Window α} {n : Nat} : (w.get? n).isSome ↔ w.first ≤ n ∧ n < w.next := by
  have := w.first_add_length
  unfold get?
  split
  · rw [isSome_getElem?]
    omega
  · simp only [Option.isSome_none, Bool.false_eq_true, false_iff]
    omega

theorem get?_eq_none {w : Window α} {n : Nat} (h : n < w.first ∨ w.next ≤ n) : w.get? n = none := by
  rw [← Option.not_isSome_iff_eq_none, get?_isSome]
  omega

end Window

end EthIndexer
