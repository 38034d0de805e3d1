import Mathlib.Data.List.Basic
import Mathlib.Algebra.Ring.Nat

/-!
# Text in columns

The columns that a text takes up: a tab goes on to the next multiple of eight, and any other byte
takes one. `Narrow` goes through the text once, and says that no line is too wide (`narrow_iff`).
-/

namespace WvStreams.Lib.Columns

open List

def advance (column : Nat) (b : UInt8) : Nat :=
  if b = 9 then (column / 8 + 1) * 8 else column + 1

def width (line : List UInt8) : Nat := line.foldl advance 0

def column (c : Nat) : List UInt8 → Nat
  | [] => c
  | b :: s => column (if b = 10 then 0 else advance c b) s

/-- No line of a text that begins in the column `c` goes beyond the column `m`. -/
def Narrow (m c : Nat) : List UInt8 → Prop
  | [] => c ≤ m
  | b :: s => if b = 10 then c ≤ m ∧ Narrow m 0 s else Narrow m (advance c b) s

theorem lt_advance (c : Nat) (b : UInt8) : c < advance c b := by
  rw [advance]
  split <;> omega

theorem advance_of_ne {b : UInt8} (h : b ≠ 9) (c : Nat) : advance c b = c + 1 := if_neg h

variable {m c : Nat} {s t : List UInt8}

theorem column_append (c : Nat) (s t : List UInt8) : column c (s ++ t) = column (column c s) t := by
  induction s generalizing c with
  | nil => rfl
  | cons b s ih => exact ih _

theorem Narrow.le (h : Narrow m c s) : c ≤ m := by
  induction s generalizing c with
  | nil => exact h
  | cons b s ih =>
    rw [Narrow] at h
    split at h
    · exact h.1
    · exact Nat.le_trans (Nat.le_of_lt (lt_advance c b)) (ih h)

theorem narrow_append : Narrow m c (s ++ t) ↔ Narrow m c s ∧ Narrow m (column c s) t := by
  induction s generalizing c with
  | nil => exact ⟨fun h => ⟨h.le, h⟩, fun h => h.2⟩
  | cons b s ih =>
    rw [cons_append, Narrow, Narrow, column]
    split
    · rw [ih, and_assoc]
    · exact ih

theorem narrow_concat (h : Narrow m c s) : Narrow m c (s ++ [10]) := by
  refine narrow_append.mpr ⟨h, ?_⟩
  have hle := (narrow_append.mp ((append_nil s).symm ▸ h)).2
  exact ⟨hle, Nat.zero_le m⟩

theorem narrow_iff_lines {head : List UInt8} {tail : List (List UInt8)}
    (h : s.splitOn 10 = head :: tail) :
    Narrow m c s ↔ head.foldl advance c ≤ m ∧ ∀ line ∈ tail, width line ≤ m := by
  induction s generalizing c head tail with
  | nil =>
    obtain ⟨rfl, rfl⟩ := cons.inj h
    exact ⟨fun hle => ⟨hle, forall_mem_nil _⟩, fun h => h.1⟩
  | cons b s ih =>
    rw [splitOn_cons_eq_if_modifyHead] at h
    rw [Narrow]
    obtain ⟨first, lines, hsplit⟩ := exists_cons_of_ne_nil (splitOn_ne_nil 10 s)
    rw [hsplit] at h
    by_cases hb : b = 10
    · rw [if_pos (by simpa using hb)] at h
      obtain ⟨rfl, rfl⟩ := cons.inj h
      rw [if_pos hb, ih hsplit, forall_mem_cons]
      rfl
    · rw [if_neg (by simpa using hb)] at h
      obtain ⟨rfl, rfl⟩ := cons.inj h
      rw [if_neg hb, ih hsplit]
      rfl

theorem narrow_iff : Narrow m 0 s ↔ ∀ line ∈ s.splitOn 10, width line ≤ m := by
  obtain ⟨head, tail, hsplit⟩ := exists_cons_of_ne_nil (splitOn_ne_nil 10 s)
  rw [narrow_iff_lines hsplit, hsplit, forall_mem_cons]
  rfl

theorem column_concat_newline (c : Nat) (s : List UInt8) : column c (s ++ [10]) = 0 :=
  column_append c s [10]

theorem column_plain (h : ∀ b ∈ s, b ≠ 9 ∧ b ≠ 10) : column c s = c + s.length := by
  induction s generalizing c with
  | nil => rfl
  | cons b s ih =>
    obtain ⟨htab, hnewline⟩ := h b mem_cons_self
    rw [column, if_neg hnewline, advance_of_ne htab, ih fun b hb => h b (mem_cons_of_mem _ hb),
      length_cons]
    omega

theorem narrow_plain (h : ∀ b ∈ s, b ≠ 9 ∧ b ≠ 10) : Narrow m c s ↔ c + s.length ≤ m := by
  induction s generalizing c with
  | nil => rfl
  | cons b s ih =>
    obtain ⟨htab, hnewline⟩ := h b mem_cons_self
    rw [Narrow, if_neg hnewline, advance_of_ne htab, ih fun b hb => h b (mem_cons_of_mem _ hb),
      length_cons]
    omega

theorem add_length_le_column (h : ∀ b ∈ s, b ≠ 10) : c + s.length ≤ column c s := by
  induction s generalizing c with
  | nil => exact Nat.le_refl c
  | cons b s ih =>
    have hlt := lt_advance c b
    have hmore := @ih (advance c b) fun b hb => h b (mem_cons_of_mem _ hb)
    rw [column, if_neg (h b mem_cons_self), length_cons]
    omega

end WvStreams.Lib.Columns
