import Mathlib.Data.Int.GCD
import Mathlib.Data.Multiset.AddSub
import Mathlib.Data.Nat.Find
import Mathlib.Data.Nat.ModEq

/-!
# Probing

In a table with open addressing an element has a sequence of places. `search` goes through a
sequence until it has an answer. A sequence with a fixed stride reaches every place if the
stride has no factor in common with the size of the table, also where the numbers wrap around
once, as long as a whole cycle fits behind the wrap (`exists_place`).
-/

namespace WvStreams.Lib.Probing

open List

/-- The first answer from some attempt on. -/
def search {β : Type} (answer : Nat → Option β) : Nat → Nat → Option β
  | 0, _ => none
  | fuel + 1, attempt =>
    match answer attempt with
    | some b => some b
    | none => search answer fuel (attempt + 1)

section Search

variable {β : Type} {answer : Nat → Option β}

theorem search_eq {fuel attempt j : Nat} {b : β} (hj : j < fuel)
    (hb : answer (attempt + j) = some b)
    (hbefore : ∀ i < j, answer (attempt + i) = none) : search answer fuel attempt = some b := by
  induction j generalizing fuel attempt with
  | zero =>
    obtain ⟨fuel, rfl⟩ := Nat.exists_eq_add_one_of_ne_zero (Nat.ne_of_gt hj)
    rw [Nat.add_zero] at hb
    rw [search, hb]
  | succ j ih =>
    obtain ⟨fuel, rfl⟩ := Nat.exists_eq_add_one_of_ne_zero (Nat.ne_of_gt (Nat.zero_lt_of_lt hj))
    have hfirst : answer attempt = none := hbefore 0 (Nat.succ_pos j)
    rw [search, hfirst]
    refine ih (Nat.lt_of_succ_lt_succ hj) (by rw [← hb, Nat.add_assoc, Nat.add_comm 1 j]) ?_
    intro i hi
    rw [Nat.add_assoc, Nat.add_comm 1 i]
    exact hbefore (i + 1) (Nat.succ_lt_succ hi)

theorem exists_search {fuel bound : Nat} (hbound : bound < fuel) (hanswer : answer bound ≠ none) :
    ∃ j b, j ≤ bound ∧ search answer fuel 0 = some b ∧ answer j = some b ∧
      ∀ i < j, answer i = none := by
  have hex : ∃ j, answer j ≠ none := ⟨bound, hanswer⟩
  obtain ⟨b, hb⟩ := Option.ne_none_iff_exists'.mp (Nat.find_spec hex)
  have hle : Nat.find hex ≤ bound := Nat.find_min' hex hanswer
  have hbefore : ∀ i < Nat.find hex, answer i = none := fun i hi =>
    not_not.mp (Nat.find_min hex hi)
  refine ⟨Nat.find hex, b, hle, search_eq (Nat.lt_of_le_of_lt hle hbound) ?_ ?_, hb, hbefore⟩
  · rwa [Nat.zero_add]
  · simpa only [Nat.zero_add] using hbefore

end Search

theorem exists_progression {p c r : Nat} (hc : c.Coprime p) (hr : r < p) (x : Nat) :
    ∃ i < p, (x + i * c) % p = r := by
  rcases Nat.lt_or_ge 1 p with hp | hp
  · obtain ⟨u, -, hu⟩ := Nat.exists_mul_mod_eq_one_of_coprime hc hp
    -- what is missing from `x` to `r`, in strides
    refine ⟨u * (r + (p - x % p)) % p, Nat.mod_lt _ (by omega), ?_⟩
    have hstride : u * (r + (p - x % p)) % p * c ≡ r + (p - x % p) [MOD p] :=
      calc u * (r + (p - x % p)) % p * c
          ≡ u * (r + (p - x % p)) * c [MOD p] := (Nat.mod_modEq _ _).mul_right c
        _ = c * u * (r + (p - x % p)) := by rw [Nat.mul_comm, ← Nat.mul_assoc]
        _ ≡ 1 * (r + (p - x % p)) [MOD p] :=
          Nat.ModEq.mul_right _ (hu.trans (Nat.mod_eq_of_lt hp).symm)
        _ = r + (p - x % p) := Nat.one_mul _
    have hx : x % p < p := Nat.mod_lt x (by omega)
    have hsum : x + u * (r + (p - x % p)) % p * c ≡ r + p [MOD p] :=
      calc x + u * (r + (p - x % p)) % p * c
          ≡ x % p + (r + (p - x % p)) [MOD p] := (Nat.mod_modEq x p).symm.add hstride
        _ = r + p := by omega
    rw [hsum, Nat.add_mod_right, Nat.mod_eq_of_lt hr]
  · obtain rfl : p = 1 := by omega
    exact ⟨0, Nat.one_pos, by omega⟩

/-- The places of a sequence of numbers below `N`, in a table of size `p`. -/
theorem exists_place {p c N h r : Nat} (hc : c.Coprime p) (hfits : c * p ≤ N) (hh : h < N)
    (hr : r < p) : ∃ j < 2 * p, (h + j * c) % N % p = r := by
  by_cases hwrap : ∃ j, j < p ∧ N ≤ h + j * c
  · -- the first number behind the wrap
    obtain ⟨⟨hm, hN⟩, hfirst⟩ := And.intro (Nat.find_spec hwrap) fun j => @Nat.find_min _ _ hwrap j
    generalize Nat.find hwrap = m at hm hN hfirst
    obtain ⟨m, rfl⟩ : ∃ k, m = k + 1 := ⟨m - 1, by rcases m with _ | m <;> omega⟩
    have hbelow : h + m * c < N := by
      by_contra hle
      exact hfirst m (Nat.lt_succ_self m) ⟨by omega, Nat.le_of_not_lt hle⟩
    obtain ⟨x, hx⟩ := Nat.exists_eq_add_of_le hN
    have hxc : x < c := by
      rw [Nat.succ_mul] at hx
      omega
    obtain ⟨i, hi, hplace⟩ := exists_progression hc hr x
    refine ⟨m + 1 + i, by omega, ?_⟩
    have hsmall : x + i * c < N := by
      have hcycle : (i + 1) * c ≤ p * c := Nat.mul_le_mul_right c hi
      rw [Nat.succ_mul, Nat.mul_comm p c] at hcycle
      omega
    rw [Nat.add_mul (m + 1) i c, ← Nat.add_assoc, hx, Nat.add_assoc, Nat.add_mod_left,
      Nat.mod_eq_of_lt hsmall, hplace]
  · obtain ⟨i, hi, hplace⟩ := exists_progression hc hr h
    refine ⟨i, by omega, ?_⟩
    rw [Nat.mod_eq_of_lt (Nat.lt_of_not_le fun hle => hwrap ⟨i, hi, hle⟩), hplace]

section Content

variable {σ β : Type} (holds : σ → Option β)

def content (slots : List σ) : Multiset β := slots.filterMap holds

variable {slots : List σ}

theorem exists_split {i : Nat} {old : σ} (hold : slots[i]? = some old) :
    ∃ front back, slots = front ++ old :: back ∧ front.length = i ∧
      ∀ new, slots.set i new = front ++ new :: back := by
  obtain ⟨hi, hget⟩ := List.getElem?_eq_some_iff.mp hold
  refine ⟨slots.take i, slots.drop (i + 1), ?_, List.length_take_of_le (Nat.le_of_lt hi),
    fun new => by rw [set_eq_take_append_cons_drop, if_pos hi]⟩
  rw [← hget, getElem_cons_drop, take_append_drop]

theorem content_append (slots slots' : List σ) :
    content holds (slots ++ slots') = content holds slots + content holds slots' := by
  rw [content, filterMap_append, ← Multiset.coe_add]
  rfl

def adjoin : Option β → Multiset β → Multiset β
  | none, rest => rest
  | some b, rest => b ::ₘ rest

theorem content_split (front back : List σ) (slot : σ) :
    content holds (front ++ slot :: back) =
      adjoin (holds slot) (content holds front + content holds back) := by
  have hcons : content holds (slot :: back) = adjoin (holds slot) (content holds back) := by
    rw [content, filterMap_cons]
    cases holds slot <;> rfl
  rw [content_append, hcons]
  cases holds slot with
  | none => rfl
  | some b => exact Multiset.add_cons b (content holds front) (content holds back)

theorem exists_rest {i : Nat} {old : σ} (hold : slots[i]? = some old) :
    ∃ rest : Multiset β, content holds slots = adjoin (holds old) rest ∧
      ∀ new, content holds (slots.set i new) = adjoin (holds new) rest := by
  obtain ⟨front, back, hslots, -, hset⟩ := exists_split hold
  exact ⟨_, hslots ▸ content_split holds front back old,
    fun new => (congrArg _ (hset new)).trans (content_split holds front back new)⟩

theorem exists_countP (p : σ → Bool) {i : Nat} {old : σ} (hold : slots[i]? = some old) :
    ∃ rest, slots.countP p = (if p old then 1 else 0) + rest ∧
      ∀ new, (slots.set i new).countP p = (if p new then 1 else 0) + rest := by
  obtain ⟨front, back, hslots, -, hset⟩ := exists_split hold
  have hone : ∀ slot, (front ++ slot :: back).countP p =
      (if p slot then 1 else 0) + (front.countP p + back.countP p) := by
    intro slot
    rw [countP_append, countP_cons]
    omega
  exact ⟨_, hslots ▸ hone old, fun new => (congrArg _ (hset new)).trans (hone new)⟩

theorem mem_content {b : β} :
    b ∈ content holds slots ↔
      ∃ (i : Nat) (slot : σ), slots[i]? = some slot ∧ holds slot = some b := by
  rw [content, Multiset.mem_coe, mem_filterMap]
  simp only [mem_iff_getElem?]
  constructor
  · rintro ⟨slot, ⟨i, hi⟩, hb⟩
    exact ⟨i, slot, hi, hb⟩
  · rintro ⟨i, slot, hi, hb⟩
    exact ⟨slot, ⟨i, hi⟩, hb⟩

end Content

end WvStreams.Lib.Probing
