import Mathlib.Algebra.BigOperators.Fin
import Mathlib.Data.BitVec
import Mathlib.Data.Matrix.Mul
import WvStreams.Lib.ForLoop
import WvStreams.Lib.Machine

/-!
# `WvMatrix`

A matrix is two dimensions and an array. `operator=` allocates the new array for the dimensions it
had before, and has then freed the entries it is to copy if it is assigned to itself.
-/

namespace WvStreams

open Lib List Option

/-- An `int`, whose sums and products wrap. -/
abbrev Entry := BitVec 32

/-- An entry is none until it has been written. -/
structure WvMatrix where
  data : List (Option Entry)
  m : Nat
  n : Nat
  deriving DecidableEq

namespace WvMatrix

/-- The length of an array for `m * n` entries, which is an `int`; none cannot be allocated. -/
def count (m n : Nat) : Option Nat :=
  let size := ((m * n : Nat) : Int).bmod (2 ^ 32)
  if 0 ≤ size then some size.toNat else none

def memcpy {α : Type} (dest src : List α) (count : Nat) : Option (List α) :=
  if count ≤ dest.length ∧ count ≤ src.length then some (src.take count ++ dest.drop count)
  else none

/-- An entry that has not been written is not used. An index that is no `int` is behind the
array in any case. -/
def at? (mx : WvMatrix) (row col : Nat) : Option Entry := (mx.data[mx.n * row + col]?).join

def put (mx : WvMatrix) (row col : Nat) (c : Entry) : Option WvMatrix :=
  if mx.n * row + col < mx.data.length then
    some { mx with data := mx.data.set (mx.n * row + col) (some c) }
  else none

def construct (m n : Nat) (data : Option (List Entry)) : Option WvMatrix :=
  if m = 0 ∨ n = 0 then some ⟨[], m, n⟩
  else do
    let size ← count m n
    match data with
    | some data => do
      let data ← memcpy (List.replicate size none) (data.map some) size
      some ⟨data, m, n⟩
    | none => some ⟨List.replicate size (some 0), m, n⟩

def copy (mx : WvMatrix) : Option WvMatrix := do
  let size ← count mx.m mx.n
  let data ← memcpy (List.replicate size none) mx.data size
  some ⟨data, mx.m, mx.n⟩

/-- `operator=`; `mx` is none for the matrix itself. -/
def assign (self : WvMatrix) (mx : Option WvMatrix) : Option WvMatrix := do
  let size ← count self.m self.n
  let self := { self with data := List.replicate size none }
  let mx := mx.getD self
  let size ← count mx.m mx.n
  let data ← memcpy self.data mx.data size
  some ⟨data, mx.m, mx.n⟩

def addEntry (self : WvMatrix) (i : Nat) (res : WvMatrix) : Option WvMatrix := do
  let x ← (res.data[i]?).join
  let y ← (self.data[i]?).join
  some { res with data := res.data.set i (some (x + y)) }

def add (self rhs : WvMatrix) : Option WvMatrix := do
  let res ← copy rhs
  if self.m ≠ rhs.m ∨ self.n ≠ rhs.n then some res
  else do
    let size ← count self.m self.n
    forLoop (addEntry self) size res

def dot (self rhs : WvMatrix) (i j : Nat) : Option Entry :=
  forLoop (fun k c => (do
    let x ← self.at? i k
    let y ← rhs.at? k j
    some (x * y)).map (c + ·)) self.n 0

def mul (self rhs : WvMatrix) : Option WvMatrix := do
  let res ← construct self.m rhs.n none
  if self.n ≠ rhs.m then some res
  else
    forLoop (fun i res =>
      forLoop (fun j res => do
        let c ← dot self rhs i j
        res.put i j c) res.n res) res.m res

/-! ## Sequences of operations -/

/-- What is done with the objects, which are known by their numbers. -/
inductive Op where
  | construct (m n : Nat) (data : Option (List Entry))
  | copy (i : Nat)
  | assign (i j : Nat)
  | sum (i j : Nat)
  | product (i j : Nat)

def step (s : List WvMatrix) : Op → Option (List WvMatrix)
  | .construct m n data => (construct m n data).map (s ++ [·])
  | .copy i => do
    let mx ← (← s[i]?).copy
    some (s ++ [mx])
  | .assign i j => do
    let self ← s[i]?
    let mx ← s[j]?
    let self ← self.assign (if i = j then none else some mx)
    some (s.set i self)
  | .sum i j => do
    let mx ← (← s[i]?).add (← s[j]?)
    some (s ++ [mx])
  | .product i j => do
    let mx ← (← s[i]?).mul (← s[j]?)
    some (s ++ [mx])

def machine : Machine (List WvMatrix) Op Unit := ⟨fun s op => (step s op).map (·, ())⟩

/-! ## Matrices -/

structure Mat where
  m : Nat
  n : Nat
  entry : Matrix (Fin m) (Fin n) Entry

namespace Mat

def add (A B : Mat) (h : A.m = B.m ∧ A.n = B.n) : Mat :=
  ⟨A.m, A.n, A.entry + B.entry.submatrix (Fin.cast h.1) (Fin.cast h.2)⟩

def mul (A B : Mat) (h : A.n = B.m) : Mat :=
  ⟨A.m, B.n, A.entry * B.entry.submatrix (Fin.cast h) id⟩

def ofData (m n : Nat) (data : Option (List Entry)) : Mat :=
  ⟨m, n, fun i j => data.elim 0 fun data => data.getD (n * i + j) 0⟩

end Mat

/-- The mathematical results; none where there are not such matrices. -/
def denote (s : List Mat) : Op → Option (List Mat)
  | .construct m n data =>
    if 0 < m ∧ 0 < n ∧ ∀ d ∈ data, d.length = m * n then some (s ++ [Mat.ofData m n data])
    else none
  | .copy i => do
    let A ← s[i]?
    some (s ++ [A])
  | .assign i j => do
    let _ ← s[i]?
    let B ← s[j]?
    some (s.set i B)
  | .sum i j => do
    let A ← s[i]?
    let B ← s[j]?
    if h : A.m = B.m ∧ A.n = B.n then some (s ++ [A.add B h]) else none
  | .product i j => do
    let A ← s[i]?
    let B ← s[j]?
    if h : A.n = B.m then some (s ++ [A.mul B h]) else none

def cell (mx : WvMatrix) (k : Nat) : Entry := ((mx.data[k]?).join).getD 0

def mat (mx : WvMatrix) : Mat := ⟨mx.m, mx.n, fun i j => mx.cell (mx.n * i + j)⟩

structure Whole (mx : WvMatrix) : Prop where
  rows : 0 < mx.m
  cols : 0 < mx.n
  fits : mx.m * mx.n < 2 ^ 31
  cells : ∀ k < mx.m * mx.n, (mx.data[k]?).join = some (mx.cell k)

/-- The operation succeeds, and its result is the mathematical one. -/
def Right (s : List WvMatrix) (op : Op) (s' : List WvMatrix) (_ : Unit) : Prop :=
  denote (s.map mat) op = some (s'.map mat) ∧ ∀ mx ∈ s', mx.Whole

/-! ## Arrays -/

variable {A B : Mat} {i j m n : Nat} {s : List WvMatrix} {mx self rhs : WvMatrix}

theorem index_lt (hi : i < m) (hj : j < n) : n * i + j < m * n := by
  calc n * i + j < n * (i + 1) := by rw [Nat.mul_succ]; omega
    _ ≤ n * m := Nat.mul_le_mul_left n hi
    _ = m * n := Nat.mul_comm n m

theorem count_eq (h : m * n < 2 ^ 31) : count m n = some (m * n) := by
  have hsize : ((m * n : Nat) : Int).bmod (2 ^ 32) = (m * n : Nat) := by
    generalize m * n = k at *
    exact Int.bmod_eq_of_le (by omega) (by omega)
  unfold count
  rw [hsize, if_pos (Int.natCast_nonneg _), Int.toNat_natCast]

theorem mat_eq (hm : mx.m = A.m) (hn : mx.n = A.n)
    (h : ∀ i (hi : i < A.m) j (hj : j < A.n), mx.cell (A.n * i + j) = A.entry ⟨i, hi⟩ ⟨j, hj⟩) :
    mx.mat = A := by
  obtain ⟨m, n, entry⟩ := A
  obtain rfl : mx.m = m := hm
  obtain rfl : mx.n = n := hn
  rw [mat]
  congr
  funext i j
  exact h i i.isLt j j.isLt

theorem cell_of_get {k : Nat} {c : Entry} (h : (mx.data[k]?).join = some c) : mx.cell k = c := by
  rw [cell, h, getD_some]

theorem Whole.le_length (h : mx.Whole) : mx.m * mx.n ≤ mx.data.length := by
  by_contra hlt
  have hcell := h.cells _ (Nat.lt_of_not_le hlt)
  rw [getElem?_eq_none le_rfl] at hcell
  cases hcell

theorem memcpy_eq {α : Type} {dest src : List α} {size : Nat} (hdest : size ≤ dest.length)
    (hsrc : size ≤ src.length) : ∃ data, memcpy dest src size = some data ∧
      data.length = dest.length ∧ ∀ k < size, data[k]? = src[k]? := by
  refine ⟨_, if_pos ⟨hdest, hsrc⟩, ?_, ?_⟩
  · simp only [length_append, length_take, length_drop]
    omega
  · intro k hk
    rw [getElem?_append_left (by rw [length_take]; omega), getElem?_take_of_lt hk]

/-! ## The operations -/

theorem construct_eq {m n : Nat} {data : Option (List Entry)} (hm : 0 < m) (hn : 0 < n)
    (hfits : m * n < 2 ^ 31) (hdata : ∀ d ∈ data, d.length = m * n) :
    ∃ mx, construct m n data = some mx ∧ mx.Whole ∧ mx.mat = Mat.ofData m n data ∧
      mx.m = m ∧ mx.n = n ∧ mx.data.length = m * n := by
  have hzero : ¬ (m = 0 ∨ n = 0) := by omega
  rw [construct, if_neg hzero, count_eq hfits]
  cases data with
  | none =>
    have hcells : ∀ k < m * n, ((replicate (m * n) (some 0))[k]?).join = some (0 : Entry) := by
      intro k hk
      rw [getElem?_replicate, if_pos hk]
      rfl
    refine ⟨_, rfl, ⟨hm, hn, hfits, ?_⟩, ?_, rfl, rfl, length_replicate⟩
    · intro k hk
      rw [cell_of_get (hcells k hk)]
      exact hcells k hk
    · apply mat_eq rfl rfl
      intro i hi j hj
      exact cell_of_get (hcells _ (index_lt hi hj))
  | some d =>
    have hlen : d.length = m * n := hdata d rfl
    obtain ⟨data, hcopy, hsize, hget⟩ := @memcpy_eq _ (replicate (m * n) none)
      (d.map some) (m * n) (by simp) (by simp [hlen])
    have hcells : ∀ k < m * n, (data[k]?).join = some (d.getD k 0) := by
      intro k hk
      rw [hget k hk, getElem?_map, getD_eq_getElem?_getD, getElem?_eq_getElem (by omega)]
      rfl
    simp only [bind_eq_bind, bind_some, hcopy]
    refine ⟨_, rfl, ⟨hm, hn, hfits, ?_⟩, ?_, rfl, rfl, by simpa using hsize⟩
    · intro k hk
      rw [cell_of_get (hcells k hk)]
      exact hcells k hk
    · apply mat_eq rfl rfl
      intro i hi j hj
      exact cell_of_get (hcells _ (index_lt hi hj))

theorem copied (h : mx.Whole) {data : List (Option Entry)}
    (hget : ∀ k < mx.m * mx.n, data[k]? = mx.data[k]?) :
    (⟨data, mx.m, mx.n⟩ : WvMatrix).Whole ∧ (⟨data, mx.m, mx.n⟩ : WvMatrix).mat = mx.mat := by
  have hcell : ∀ k < mx.m * mx.n, (⟨data, mx.m, mx.n⟩ : WvMatrix).cell k = mx.cell k := by
    intro k hk
    apply cell_of_get
    rw [hget k hk]
    exact h.cells k hk
  constructor
  · refine ⟨h.rows, h.cols, h.fits, ?_⟩
    intro k hk
    rw [hcell k hk, hget k hk]
    exact h.cells k hk
  · apply mat_eq rfl rfl
    intro i hi j hj
    exact hcell _ (index_lt hi hj)

theorem copy_eq (h : mx.Whole) :
    ∃ data, copy mx = some ⟨data, mx.m, mx.n⟩ ∧ data.length = mx.m * mx.n ∧
      ∀ k < mx.m * mx.n, data[k]? = mx.data[k]? := by
  obtain ⟨data, hcopy, hlen, hget⟩ := @memcpy_eq _
    (replicate (mx.m * mx.n) none) mx.data (mx.m * mx.n) (by simp) h.le_length
  refine ⟨data, ?_, by simpa using hlen, hget⟩
  simp only [copy, count_eq h.fits, bind_eq_bind, bind_some, hcopy]

theorem assign_eq (hself : self.Whole) (hmx : mx.Whole) (hroom : mx.m * mx.n ≤ self.m * self.n) :
    ∃ res, assign self (some mx) = some res ∧ res.Whole ∧ res.mat = mx.mat := by
  obtain ⟨data, hcopy, -, hget⟩ := @memcpy_eq _
    (replicate (self.m * self.n) none) mx.data (mx.m * mx.n) (by simpa using hroom)
    hmx.le_length
  obtain ⟨hwhole, hmat⟩ := copied hmx hget
  refine ⟨⟨data, mx.m, mx.n⟩, ?_, hwhole, hmat⟩
  simp only [assign, count_eq hself.fits, count_eq hmx.fits, bind_eq_bind, bind_some,
    getD_some, hcopy]

structure Added (lhs rhs : WvMatrix) (k : Nat) (res : WvMatrix) : Prop where
  m : res.m = rhs.m
  n : res.n = rhs.n
  length : res.data.length = rhs.m * rhs.n
  done : ∀ l < k, (res.data[l]?).join = some (lhs.cell l + rhs.cell l)
  rest : ∀ l < rhs.m * rhs.n, k ≤ l → (res.data[l]?).join = some (rhs.cell l)

theorem Added.step {self rhs res : WvMatrix} {k : Nat} (h : Added self rhs k res)
    (hself : self.Whole) (hk : k < rhs.m * rhs.n) (hk' : k < self.m * self.n) :
    ∃ res', addEntry self k res = some res' ∧ Added self rhs (k + 1) res' := by
  refine ⟨{ res with data := res.data.set k (some (rhs.cell k + self.cell k)) }, ?_, h.m, h.n, ?_,
    ?_, ?_⟩
  · simp only [addEntry, h.rest k hk le_rfl, hself.cells k hk', bind_eq_bind, bind_some]
  · rw [length_set]
    exact h.length
  · intro l hl
    rcases Nat.lt_succ_iff_lt_or_eq.mp hl with hl | rfl
    · rw [getElem?_set_ne (by omega)]
      exact h.done l hl
    · rw [getElem?_set_self (by rw [h.length]; exact hk), add_comm]
      rfl
  · intro l hl hkl
    rw [getElem?_set_ne (by omega)]
    exact h.rest l hl (by omega)

theorem add_eq (hself : self.Whole) (hrhs : rhs.Whole) (hdim : self.m = rhs.m ∧ self.n = rhs.n) :
    ∃ res, add self rhs = some res ∧ res.Whole ∧ res.mat = self.mat.add rhs.mat hdim := by
  have hsize : self.m * self.n = rhs.m * rhs.n := by rw [hdim.1, hdim.2]
  obtain ⟨data, hcopy, hlen, hget⟩ := copy_eq hrhs
  have hstart : Added self rhs 0 ⟨data, rhs.m, rhs.n⟩ := by
    refine ⟨rfl, rfl, hlen, fun l hl => absurd hl (Nat.not_lt_zero l), ?_⟩
    intro l hl _
    rw [hget l hl]
    exact hrhs.cells l hl
  obtain ⟨res, hloop, hres⟩ := forLoop_inv (Added self rhs) (n := rhs.m * rhs.n) hstart
    fun k hk res h => h.step hself hk (hsize ▸ hk)
  have hcell : ∀ k < rhs.m * rhs.n, res.cell k = self.cell k + rhs.cell k :=
    fun k hk => cell_of_get (hres.done k hk)
  have hdiff : ¬ (self.m ≠ rhs.m ∨ self.n ≠ rhs.n) := by
    simp [hdim]
  refine ⟨res, ?_, ⟨?_, ?_, ?_, ?_⟩, ?_⟩
  · simp only [add, hcopy, bind_eq_bind, bind_some, if_neg hdiff, count_eq hself.fits, hsize, hloop]
  · exact hres.m ▸ hrhs.rows
  · exact hres.n ▸ hrhs.cols
  · rw [hres.m, hres.n]
    exact hrhs.fits
  · rw [hres.m, hres.n]
    intro k hk
    rw [hcell k hk]
    exact hres.done k hk
  · apply mat_eq (hres.m.trans hdim.1.symm) (hres.n.trans hdim.2.symm)
    intro i hi j hj
    change i < self.m at hi
    change j < self.n at hj
    change res.cell (self.n * i + j) = self.cell (self.n * i + j) + rhs.cell (rhs.n * i + j)
    rw [hcell _ (hsize ▸ index_lt hi hj), hdim.2]

structure Filled (m n : Nat) (f : Nat → Nat → Entry) (k : Nat) (res : WvMatrix) : Prop where
  rows : res.m = m
  cols : res.n = n
  length : res.data.length = m * n
  done : ∀ l < k, (res.data[l]?).join = some (f (l / n) (l % n))

theorem Filled.put {k : Nat} {f : Nat → Nat → Entry} {res : WvMatrix} (h : Filled m n f k res)
    (hk : k = n * i + j) (hi : i < m) (hj : j < n) :
    ∃ res', res.put i j (f i j) = some res' ∧ Filled m n f (k + 1) res' := by
  have hlt : res.n * i + j < res.data.length := by
    rw [h.cols, h.length]
    exact index_lt hi hj
  have hpos : 0 < n := Nat.zero_lt_of_lt hj
  refine ⟨_, if_pos hlt, h.rows, h.cols, ?_, ?_⟩
  · rw [length_set]
    exact h.length
  · intro l hl
    rcases Nat.lt_succ_iff_lt_or_eq.mp hl with hl | rfl
    · rw [getElem?_set_ne (by rw [h.cols]; omega)]
      exact h.done l hl
    · rw [hk, h.cols, getElem?_set_self (by rw [h.length]; exact index_lt hi hj),
        Nat.mul_add_div hpos, Nat.div_eq_of_lt hj, Nat.mul_add_mod, Nat.mod_eq_of_lt hj]
      rfl

theorem dot_eq (hself : self.Whole) (hrhs : rhs.Whole) (hdim : self.n = rhs.m) (hi : i < self.m)
    (hj : j < rhs.n) :
    dot self rhs i j = some (∑ k ∈ Finset.range self.n,
      self.cell (self.n * i + k) * rhs.cell (rhs.n * k + j)) := by
  apply forLoop_sum
  intro k hk
  have hx : self.at? i k = some (self.cell (self.n * i + k)) := hself.cells _ (index_lt hi hk)
  have hy : rhs.at? k j = some (rhs.cell (rhs.n * k + j)) :=
    hrhs.cells _ (index_lt (hdim ▸ hk) hj)
  rw [hx, hy]
  rfl

theorem mul_eq (hself : self.Whole) (hrhs : rhs.Whole) (hdim : self.n = rhs.m)
    (hfits : self.m * rhs.n < 2 ^ 31) :
    ∃ res, mul self rhs = some res ∧ res.Whole ∧ res.mat = self.mat.mul rhs.mat hdim := by
  let f := fun i j => ∑ k ∈ Finset.range self.n,
    self.cell (self.n * i + k) * rhs.cell (rhs.n * k + j)
  obtain ⟨res, hnew, -, -, hm, hn, hlen⟩ := @construct_eq self.m rhs.n none hself.rows hrhs.cols hfits
    (by simp)
  have hstart : Filled self.m rhs.n f 0 res :=
    ⟨hm, hn, hlen, fun l hl => absurd hl (Nat.not_lt_zero l)⟩
  have hrow : ∀ i < self.m, ∀ res, Filled self.m rhs.n f (rhs.n * i) res →
      ∃ res', forLoop (fun j res => do
        let c ← dot self rhs i j
        res.put i j c) res.n res = some res' ∧ Filled self.m rhs.n f (rhs.n * (i + 1)) res' := by
    intro i hi res h
    rw [h.cols]
    apply forLoop_inv (fun j => Filled self.m rhs.n f (rhs.n * i + j)) h
    intro j hj res h
    rw [dot_eq hself hrhs hdim hi hj]
    exact h.put rfl hi hj
  obtain ⟨res', hloop, hres⟩ := forLoop_inv (fun i => Filled self.m rhs.n f (rhs.n * i)) hstart
    hrow
  have hdiff : ¬ self.n ≠ rhs.m := not_not.mpr hdim
  have hcell : ∀ k < self.m * rhs.n, res'.cell k = f (k / rhs.n) (k % rhs.n) :=
    fun k hk => cell_of_get (hres.done k (Nat.mul_comm self.m rhs.n ▸ hk))
  refine ⟨res', ?_, ⟨?_, ?_, ?_, ?_⟩, ?_⟩
  · simp only [mul, hnew, bind_eq_bind, bind_some, if_neg hdiff, hm]
    exact hloop
  · exact hres.rows ▸ hself.rows
  · exact hres.cols ▸ hrhs.cols
  · rw [hres.rows, hres.cols]
    exact hfits
  · rw [hres.rows, hres.cols]
    intro k hk
    rw [hcell k hk]
    exact hres.done k (Nat.mul_comm self.m rhs.n ▸ hk)
  · apply mat_eq hres.rows hres.cols
    intro i hi j hj
    change i < self.m at hi
    change j < rhs.n at hj
    change res'.cell (rhs.n * i + j) = _
    rw [hcell _ (index_lt hi hj), Nat.mul_add_div hrhs.cols, Nat.div_eq_of_lt hj, Nat.mul_add_mod,
      Nat.mod_eq_of_lt hj]
    exact Finset.sum_range fun k => self.cell (self.n * i + k) * rhs.cell (rhs.n * k + j)

/-! ## Runs -/

def Admissible (s : List WvMatrix) (op : Op) : Prop := (denote (s.map mat) op).isSome

/-- An `int` counts the entries, and `operator=` is given another object that is not larger. -/
def Safe (s : List WvMatrix) : Op → Prop
  | .construct m n _ => m * n < 2 ^ 31
  | .copy _ => True
  | .assign i j =>
    i ≠ j ∧ ∀ self ∈ s[i]?, ∀ mx ∈ s[j]?, mx.m * mx.n ≤ self.m * self.n
  | .sum _ _ => True
  | .product i j => ∀ self ∈ s[i]?, ∀ mx ∈ s[j]?, self.m * mx.n < 2 ^ 31

instance (s : List WvMatrix) (op : Op) : Decidable (Admissible s op) :=
  inferInstanceAs (Decidable (_ = true))

instance (s : List WvMatrix) : (op : Op) → Decidable (Safe s op)
  | .construct m n _ => inferInstanceAs (Decidable (m * n < 2 ^ 31))
  | .copy _ => .isTrue trivial
  | .assign i j => inferInstanceAs (Decidable
      (i ≠ j ∧ ∀ self ∈ s[i]?, ∀ mx ∈ s[j]?, mx.m * mx.n ≤ self.m * self.n))
  | .sum _ _ => .isTrue trivial
  | .product i j => inferInstanceAs (Decidable
      (∀ self ∈ s[i]?, ∀ mx ∈ s[j]?, self.m * mx.n < 2 ^ 31))

theorem right_of_append {op : Op} (hs : ∀ mx ∈ s, mx.Whole)
    (hden : denote (s.map mat) op = some (s.map mat ++ [A])) (hmx : mx.Whole) (hmat : mx.mat = A) :
    Right s op (s ++ [mx]) () := by
  refine ⟨?_, ?_⟩
  · rw [hden, map_append, map_singleton, hmat]
  · exact forall_mem_append.mpr ⟨hs, forall_mem_singleton.mpr hmx⟩

theorem object (hs : ∀ mx ∈ s, mx.Whole) (hA : (s.map mat)[i]? = some A) :
    ∃ mx, s[i]? = some mx ∧ mx.mat = A ∧ mx.Whole := by
  rw [getElem?_map] at hA
  obtain ⟨mx, hi, hmat⟩ := map_eq_some_iff.mp hA
  exact ⟨mx, hi, hmat, hs mx (mem_of_getElem? hi)⟩

theorem denote_copy {s : List Mat} (hA : s[i]? = some A) :
    denote s (.copy i) = some (s ++ [A]) := by
  simp only [denote, hA, bind_eq_bind, bind_some]

theorem denote_assign {s : List Mat} (hA : s[i]? = some A) (hB : s[j]? = some B) :
    denote s (.assign i j) = some (s.set i B) := by
  simp only [denote, hA, hB, bind_eq_bind, bind_some]

theorem denote_sum {s : List Mat} (hA : s[i]? = some A) (hB : s[j]? = some B)
    (hdim : A.m = B.m ∧ A.n = B.n) : denote s (.sum i j) = some (s ++ [A.add B hdim]) := by
  simp only [denote, hA, hB, dif_pos hdim, bind_eq_bind, bind_some]

theorem denote_product {s : List Mat} (hA : s[i]? = some A) (hB : s[j]? = some B)
    (hdim : A.n = B.m) : denote s (.product i j) = some (s ++ [A.mul B hdim]) := by
  simp only [denote, hA, hB, dif_pos hdim, bind_eq_bind, bind_some]

theorem right_construct {data : Option (List Entry)} (hs : ∀ mx ∈ s, mx.Whole)
    (hdim : 0 < m ∧ 0 < n ∧ ∀ d ∈ data, d.length = m * n) (hfits : m * n < 2 ^ 31) :
    ∃ s', step s (.construct m n data) = some s' ∧ Right s (.construct m n data) s' () := by
  obtain ⟨mx, hnew, hwhole, hmat, -⟩ := construct_eq hdim.1 hdim.2.1 hfits hdim.2.2
  refine ⟨s ++ [mx], by rw [step, hnew]; rfl, right_of_append hs ?_ hwhole hmat⟩
  simp only [denote, if_pos hdim]

theorem right_copy (hs : ∀ mx ∈ s, mx.Whole) (hA : (s.map mat)[i]? = some A) :
    ∃ s', step s (.copy i) = some s' ∧ Right s (.copy i) s' () := by
  obtain ⟨mx, hi, rfl, hwhole⟩ := object hs hA
  obtain ⟨data, hcopy, -, hget⟩ := copy_eq hwhole
  obtain ⟨hwhole', hmat⟩ := copied hwhole hget
  refine ⟨s ++ [⟨data, mx.m, mx.n⟩], ?_, right_of_append hs (denote_copy hA) hwhole' hmat⟩
  exact bind_eq_some_iff.mpr ⟨mx, hi, bind_eq_some_iff.mpr ⟨_, hcopy, rfl⟩⟩

theorem right_assign (hs : ∀ mx ∈ s, mx.Whole) (hA : (s.map mat)[i]? = some A)
    (hB : (s.map mat)[j]? = some B) (hsafe : Safe s (.assign i j)) :
    ∃ s', step s (.assign i j) = some s' ∧ Right s (.assign i j) s' () := by
  obtain ⟨self, hi, rfl, hself⟩ := object hs hA
  obtain ⟨mx, hj, rfl, hmx⟩ := object hs hB
  obtain ⟨res, hassign, hwhole, hmat⟩ := assign_eq hself hmx (hsafe.2 self hi mx hj)
  refine ⟨s.set i res, ?_, ?_, ?_⟩
  · refine bind_eq_some_iff.mpr ⟨self, hi, bind_eq_some_iff.mpr ⟨mx, hj, ?_⟩⟩
    rw [if_neg hsafe.1]
    exact bind_eq_some_iff.mpr ⟨res, hassign, rfl⟩
  · rw [denote_assign hA hB, map_set, hmat]
  · intro mx' hmem
    rcases mem_or_eq_of_mem_set hmem with hmem | rfl
    · exact hs mx' hmem
    · exact hwhole

theorem right_sum (hs : ∀ mx ∈ s, mx.Whole) (hA : (s.map mat)[i]? = some A)
    (hB : (s.map mat)[j]? = some B) (hdim : A.m = B.m ∧ A.n = B.n) :
    ∃ s', step s (.sum i j) = some s' ∧ Right s (.sum i j) s' () := by
  obtain ⟨self, hi, rfl, hself⟩ := object hs hA
  obtain ⟨rhs, hj, rfl, hrhs⟩ := object hs hB
  obtain ⟨res, hadd, hwhole, hmat⟩ := add_eq hself hrhs hdim
  refine ⟨s ++ [res], ?_, right_of_append hs (denote_sum hA hB hdim) hwhole hmat⟩
  exact bind_eq_some_iff.mpr ⟨self, hi, bind_eq_some_iff.mpr ⟨rhs, hj,
    bind_eq_some_iff.mpr ⟨res, hadd, rfl⟩⟩⟩

theorem right_product (hs : ∀ mx ∈ s, mx.Whole) (hA : (s.map mat)[i]? = some A)
    (hB : (s.map mat)[j]? = some B) (hdim : A.n = B.m) (hsafe : Safe s (.product i j)) :
    ∃ s', step s (.product i j) = some s' ∧ Right s (.product i j) s' () := by
  obtain ⟨self, hi, rfl, hself⟩ := object hs hA
  obtain ⟨rhs, hj, rfl, hrhs⟩ := object hs hB
  obtain ⟨res, hmul, hwhole, hmat⟩ := mul_eq hself hrhs hdim (hsafe self hi rhs hj)
  refine ⟨s ++ [res], ?_, right_of_append hs (denote_product hA hB hdim) hwhole hmat⟩
  exact bind_eq_some_iff.mpr ⟨self, hi, bind_eq_some_iff.mpr ⟨rhs, hj,
    bind_eq_some_iff.mpr ⟨res, hmul, rfl⟩⟩⟩

theorem step_right {op : Op} (hs : ∀ mx ∈ s, mx.Whole) (hop : Admissible s op) (hsafe : Safe s op) :
    ∃ s', step s op = some s' ∧ Right s op s' () := by
  obtain ⟨t, ht⟩ := isSome_iff_exists.mp hop
  cases op with
  | construct m n data =>
    simp only [denote] at ht
    split at ht
    · rename_i hdim
      exact right_construct hs hdim hsafe
    · cases ht
  | copy i =>
    obtain ⟨A, hA, -⟩ := bind_eq_some_iff.mp ht
    exact right_copy hs hA
  | assign i j =>
    obtain ⟨A, hA, ht⟩ := bind_eq_some_iff.mp ht
    obtain ⟨B, hB, -⟩ := bind_eq_some_iff.mp ht
    exact right_assign hs hA hB hsafe
  | sum i j =>
    obtain ⟨A, hA, ht⟩ := bind_eq_some_iff.mp ht
    obtain ⟨B, hB, ht⟩ := bind_eq_some_iff.mp ht
    split at ht
    · rename_i hdim
      exact right_sum hs hA hB hdim
    · cases ht
  | product i j =>
    obtain ⟨A, hA, ht⟩ := bind_eq_some_iff.mp ht
    obtain ⟨B, hB, ht⟩ := bind_eq_some_iff.mp ht
    split at ht
    · rename_i hdim
      exact right_product hs hA hB hdim hsafe
    · cases ht

/-! ## Algebra -/

theorem Mat.mul_assoc (A B C : Mat) (h : A.n = B.m) (h' : B.n = C.m) :
    (A.mul B h).mul C h' = A.mul (B.mul C h') h := by
  obtain ⟨m, n, a⟩ := A
  obtain ⟨m', p, b⟩ := B
  obtain ⟨m'', q, c⟩ := C
  obtain rfl : n = m' := h
  obtain rfl : p = m'' := h'
  exact congrArg (Mat.mk m q) (Matrix.mul_assoc a b c)

theorem Mat.mul_add (A B C : Mat) (h : A.n = B.m) (h' : B.m = C.m ∧ B.n = C.n) :
    A.mul (B.add C h') h = (A.mul B h).add (A.mul C (h.trans h'.1)) ⟨rfl, h'.2⟩ := by
  obtain ⟨m, n, a⟩ := A
  obtain ⟨m', p, b⟩ := B
  obtain ⟨m'', q, c⟩ := C
  obtain rfl : n = m' := h
  obtain ⟨rfl, rfl⟩ : n = m'' ∧ p = q := h'
  exact congrArg (Mat.mk m p) (Matrix.mul_add a b c)

theorem Mat.add_mul (A B C : Mat) (h : A.m = B.m ∧ A.n = B.n) (h' : A.n = C.m) :
    (A.add B h).mul C h' = (A.mul C h').add (B.mul C (h.2.symm.trans h')) ⟨h.1, rfl⟩ := by
  obtain ⟨m, n, a⟩ := A
  obtain ⟨m', p, b⟩ := B
  obtain ⟨m'', q, c⟩ := C
  obtain ⟨rfl, rfl⟩ : m = m' ∧ n = p := h
  obtain rfl : n = m'' := h'
  exact congrArg (Mat.mk m q) (Matrix.add_mul a b c)

theorem mul_of_mat (hself : self.Whole) (hrhs : rhs.Whole) (hA : self.mat = A) (hB : rhs.mat = B)
    (hdim : A.n = B.m) (hfits : A.m * B.n < 2 ^ 31) :
    ∃ res, mul self rhs = some res ∧ res.Whole ∧ res.mat = A.mul B hdim := by
  subst hA hB
  exact mul_eq hself hrhs hdim hfits

theorem add_of_mat (hself : self.Whole) (hrhs : rhs.Whole) (hA : self.mat = A) (hB : rhs.mat = B)
    (hdim : A.m = B.m ∧ A.n = B.n) :
    ∃ res, add self rhs = some res ∧ res.Whole ∧ res.mat = A.add B hdim := by
  subst hA hB
  exact add_eq hself hrhs hdim

theorem mul_assoc_mat {x y z : WvMatrix} (hx : x.Whole) (hy : y.Whole) (hz : z.Whole)
    (hxy : x.n = y.m) (hyz : y.n = z.m) (hfits : x.m * y.n < 2 ^ 31) (hfits' : y.m * z.n < 2 ^ 31)
    (hfits'' : x.m * z.n < 2 ^ 31) :
    ∃ A, ((x.mul y).bind (·.mul z)).map mat = some A ∧
      ((y.mul z).bind (x.mul ·)).map mat = some A := by
  obtain ⟨xy, hleft, hwhole, hmat⟩ := mul_eq hx hy hxy hfits
  obtain ⟨l, hl, -, hlmat⟩ := mul_of_mat hwhole hz hmat rfl hyz hfits''
  obtain ⟨yz, hright, hwhole', hmat'⟩ := mul_eq hy hz hyz hfits'
  obtain ⟨r, hr, -, hrmat⟩ := mul_of_mat hx hwhole' rfl hmat' hxy hfits''
  refine ⟨l.mat, ?_, ?_⟩
  · rw [hleft, bind_some, hl, map_some]
  · rw [hright, bind_some, hr, map_some, hrmat, hlmat]
    exact congrArg some (Mat.mul_assoc x.mat y.mat z.mat hxy hyz).symm

theorem mul_add_mat {x y z : WvMatrix} (hx : x.Whole) (hy : y.Whole) (hz : z.Whole)
    (hxy : x.n = y.m) (hyz : y.m = z.m ∧ y.n = z.n) (hfits : x.m * y.n < 2 ^ 31) :
    ∃ A, ((y.add z).bind (x.mul ·)).map mat = some A ∧
      ((x.mul y).bind fun xy => (x.mul z).bind (xy.add ·)).map mat = some A := by
  obtain ⟨yz, hleft, hwhole, hmat⟩ := add_eq hy hz hyz
  obtain ⟨l, hl, -, hlmat⟩ := mul_of_mat hx hwhole rfl hmat hxy hfits
  obtain ⟨xy, hxy', hwhole', hmat'⟩ := mul_eq hx hy hxy hfits
  obtain ⟨xz, hxz', hwhole'', hmat''⟩ := mul_eq hx hz (hxy.trans hyz.1) (hyz.2 ▸ hfits)
  obtain ⟨r, hr, -, hrmat⟩ := add_of_mat hwhole' hwhole'' hmat' hmat'' ⟨rfl, hyz.2⟩
  refine ⟨l.mat, ?_, ?_⟩
  · rw [hleft, bind_some, hl, map_some]
  · rw [hxy', bind_some, hxz', bind_some, hr, map_some, hrmat, hlmat]
    exact congrArg some (Mat.mul_add x.mat y.mat z.mat hxy hyz).symm

theorem add_mul_mat {x y z : WvMatrix} (hx : x.Whole) (hy : y.Whole) (hz : z.Whole)
    (hxy : x.m = y.m ∧ x.n = y.n) (hxz : x.n = z.m) (hfits : x.m * z.n < 2 ^ 31) :
    ∃ A, ((x.add y).bind (·.mul z)).map mat = some A ∧
      ((x.mul z).bind fun xz => (y.mul z).bind (xz.add ·)).map mat = some A := by
  obtain ⟨xy, hleft, hwhole, hmat⟩ := add_eq hx hy hxy
  obtain ⟨l, hl, -, hlmat⟩ := mul_of_mat hwhole hz hmat rfl hxz hfits
  obtain ⟨xz, hxz', hwhole', hmat'⟩ := mul_eq hx hz hxz hfits
  obtain ⟨yz, hyz', hwhole'', hmat''⟩ := mul_eq hy hz (hxy.2.symm.trans hxz) (hxy.1 ▸ hfits)
  obtain ⟨r, hr, -, hrmat⟩ := add_of_mat hwhole' hwhole'' hmat' hmat'' ⟨hxy.1, rfl⟩
  refine ⟨l.mat, ?_, ?_⟩
  · rw [hleft, bind_some, hl, map_some]
  · rw [hxz', bind_some, hyz', bind_some, hr, map_some, hrmat, hlmat]
    exact congrArg some (Mat.add_mul x.mat y.mat z.mat hxy hxz).symm

/-- Every run whose steps are safe is right, and the laws of matrices hold. -/
theorem runs_right {ops : List Op}
    (hops : machine.Along (fun s op => Admissible s op ∧ Safe s op) [] ops) :
    machine.Runs Right [] ops ∧ ∀ x y z : WvMatrix, x.Whole → y.Whole → z.Whole →
      (x.n = y.m → y.n = z.m → x.m * y.n < 2 ^ 31 → y.m * z.n < 2 ^ 31 → x.m * z.n < 2 ^ 31 →
        ∃ A, ((x.mul y).bind (·.mul z)).map mat = some A ∧
          ((y.mul z).bind (x.mul ·)).map mat = some A) ∧
      (x.n = y.m → y.m = z.m ∧ y.n = z.n → x.m * y.n < 2 ^ 31 →
        ∃ A, ((y.add z).bind (x.mul ·)).map mat = some A ∧
          ((x.mul y).bind fun xy => (x.mul z).bind (xy.add ·)).map mat = some A) ∧
      (x.m = y.m ∧ x.n = y.n → x.n = z.m → x.m * z.n < 2 ^ 31 →
        ∃ A, ((x.add y).bind (·.mul z)).map mat = some A ∧
          ((x.mul z).bind fun xz => (y.mul z).bind (xz.add ·)).map mat = some A) := by
  refine ⟨?_, fun x y z hx hy hz => ⟨?_, ?_, ?_⟩⟩
  · let Inv : List WvMatrix → Prop := fun s => ∀ mx ∈ s, mx.Whole
    have hstart : Inv [] := forall_mem_nil _
    apply Machine.runs_of_along _ hstart hops
    rintro s op hs ⟨hop, hsafe⟩
    obtain ⟨s', hstep, hright⟩ := step_right hs hop hsafe
    refine ⟨s', (), ?_, hright, hright.2⟩
    simp only [machine, hstep, Option.map_some]
  · exact mul_assoc_mat hx hy hz
  · exact mul_add_mat hx hy hz
  · exact add_mul_mat hx hy hz

theorem runs_right_two :
    machine.Runs Right [] [.construct 1 2 (some [3, 4]), .construct 2 1 none, .product 0 1,
      .product 1 0, .assign 0 2] :=
  (runs_right (by decide)).1

/-- There is no room for two entries where one was. -/
theorem not_runs_right : ¬ ∀ ops, machine.Along Admissible [] ops → machine.Runs Right [] ops := by
  intro h
  have hruns := h [.construct 1 1 none, .construct 1 2 none, .assign 0 1] (by decide)
  have hsteps := hruns.imp (Q := fun _ _ _ _ => True) fun _ _ _ _ _ => trivial
  revert hsteps
  decide

end WvMatrix

end WvStreams
