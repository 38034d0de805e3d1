import Mathlib.Data.List.Basic

/-!
# Functions that count first and write then

Such a function is run twice: without memory, to count what it would write, and with memory of
the size that it has counted. `filled` says what the memory holds on the way, and the rules say
that an element that is stored behind what is there already stays within the memory as long as
it fits.
-/

namespace WvStreams.Lib

open List

/-- The memory that is written to, of a fixed size; none if elements are only counted. -/
abbrev Dest (α : Type) := Option (List α)

namespace Dest

variable {α : Type}

/-- None if the place is not in the memory. -/
def store (dst : Dest α) (i : Nat) (a : α) : Option (Dest α) :=
  match dst with
  | none => some none
  | some mem => if i < mem.length then some (some (mem.set i a)) else none

def copy (dst : Dest α) (i : Nat) : List α → Option (Dest α)
  | [] => some dst
  | a :: s => (dst.store i a).bind fun dst => copy dst (i + 1) s

def Fits (dst : Dest α) (n : Nat) : Prop := ∀ mem ∈ dst, n ≤ mem.length

def filled (dst : Dest α) (out : List α) : Dest α := dst.map fun mem => out ++ mem.drop out.length

theorem fits_none (n : Nat) : Fits (none : Dest α) n := by
  rintro mem ⟨⟩

theorem fits_some {mem : List α} {n : Nat} (h : n ≤ mem.length) : Fits (some mem) n := by
  rintro mem ⟨⟩
  exact h

variable {out : List α} {dst : Dest α}

theorem Fits.mono {m n : Nat} (h : dst.Fits n) (hle : m ≤ n) : dst.Fits m :=
  fun mem hmem => Nat.le_trans hle (h mem hmem)

@[simp] theorem filled_none (out : List α) : filled none out = none := rfl

@[simp] theorem filled_nil (dst : Dest α) : dst.filled [] = dst := by
  cases dst <;> rfl

theorem filled_all {mem : List α} (h : mem.length = out.length) :
    filled (some mem) out = some out := by
  show some (out ++ mem.drop out.length) = some out
  rw [drop_eq_nil_of_le (Nat.le_of_eq h), append_nil]

theorem filled_filled (dst : Dest α) {out' : List α} (h : out.length ≤ out'.length) :
    (dst.filled out).filled out' = dst.filled out' := by
  cases dst with
  | none => rfl
  | some mem =>
    show some (out' ++ (out ++ mem.drop out.length).drop out'.length) = _
    rw [drop_append, drop_eq_nil_of_le h, nil_append, drop_drop, Nat.add_sub_cancel' h]
    rfl

theorem Fits.filled {n : Nat} (h : dst.Fits n) (hout : dst.Fits out.length) :
    (dst.filled out).Fits n := by
  cases dst with
  | none => exact fits_none n
  | some mem =>
    apply fits_some
    have hn := h mem rfl
    have hle := hout mem rfl
    rw [length_append, length_drop]
    omega

theorem store_filled (h : dst.Fits (out.length + 1)) (a : α) :
    (dst.filled out).store out.length a = some (dst.filled (out ++ [a])) := by
  cases dst with
  | none => rfl
  | some mem =>
    have hlt : out.length < mem.length := h mem rfl
    have hdrop : mem.drop out.length = mem[out.length] :: mem.drop (out.length + 1) :=
      drop_eq_getElem_cons hlt
    have hset : (out ++ mem.drop out.length).set out.length a =
        out ++ [a] ++ mem.drop (out ++ [a]).length := by
      rw [hdrop, set_append_right _ _ (Nat.le_refl _), Nat.sub_self, set_cons_zero,
        length_append, length_singleton, append_assoc]
      rfl
    have hroom : out.length < (out ++ mem.drop out.length).length := by
      rw [length_append, length_drop]
      omega
    exact (if_pos hroom).trans (congrArg (fun mem => some (some mem)) hset)

theorem copy_filled {dst : Dest α} {out s : List α} (h : dst.Fits (out.length + s.length)) :
    (dst.filled out).copy out.length s = some (dst.filled (out ++ s)) := by
  induction s generalizing out with
  | nil => rw [copy, append_nil]
  | cons a s ih =>
    rw [length_cons] at h
    have hlen : (out ++ [a]).length = out.length + 1 := by
      rw [length_append, length_singleton]
    have hone := store_filled (h.mono (by omega : out.length + 1 ≤ _)) a
    have hrest := @ih (out ++ [a]) (h.mono (by omega))
    rw [copy, hone, Option.bind_some, ← hlen, hrest, append_assoc, singleton_append]

theorem copy_front {dst : Dest α} {s : List α} (h : dst.Fits s.length) :
    dst.copy 0 s = some (dst.filled s) := by
  have hfront := @copy_filled _ dst [] s (h.mono (by simp))
  rwa [filled_nil] at hfront

end Dest

/-- The elements that the first pass counts are those that the second one writes into memory of
that size. -/
structure Agree {α : Type} (pass : Dest α → Option (Nat × Dest α)) (out : List α) : Prop where
  counts : pass none = some (out.length, none)
  writes : ∀ mem, mem.length = out.length → pass (some mem) = some (out.length, some out)

/-- The rule for passes that fill any memory in which the elements fit. -/
theorem Agree.of_filled {α : Type} {pass : Dest α → Option (Nat × Dest α)} {out : List α}
    (h : ∀ dst : Dest α, dst.Fits out.length → pass dst = some (out.length, dst.filled out)) :
    Agree pass out where
  counts := h none (Dest.fits_none _)
  writes mem hmem := by
    rw [h (some mem) (Dest.fits_some (Nat.le_of_eq hmem.symm)), Dest.filled_all hmem]

end WvStreams.Lib
