import Mathlib.Tactic.NormNum.Prime
import WvStreams.Containers.HashTable
import WvStreams.Lib.Machine
import WvStreams.Lib.Probing

/-!
# `WvScatterHash`

A table with open addressing: an element goes to the first place of its sequence that is not
occupied, and a removed one leaves a place behind that is still counted as used. Whatever the
hash function, the table is a multiset of elements (`multiset_of_keys`). A place that was never
used is left, since the table is rebuilt before half of it is used, and every sequence comes to it
if the table has at most 65521 slots: a whole cycle of strides is then below `2 ^ 32`.
-/

namespace WvStreams

open Lib Lib.Probing List Option Accessor

/-- `xstatus` with `xslots`, which is looked at only where the status says that it is occupied. -/
inductive Slot (α : Type) where
  | free
  | deleted
  | occupied (data : α) (auto_free : Bool)
  deriving DecidableEq

namespace Slot

variable {α : Type}

def isFree : Slot α → Bool
  | .free => true
  | _ => false

def isDeleted : Slot α → Bool
  | .deleted => true
  | _ => false

def isOccupied : Slot α → Bool
  | .occupied _ _ => true
  | _ => false

/-- The element, and whether the table is to delete it. -/
def elem : Slot α → Option (α × Bool)
  | .occupied data auto_free => some (data, auto_free)
  | _ => none

/-- The element is written to. -/
def map (f : α → α) : Slot α → Slot α
  | .occupied data auto_free => .occupied (f data) auto_free
  | slot => slot

theorem isFree_map (f : α → α) (slot : Slot α) : (slot.map f).isFree = slot.isFree := by
  cases slot <;> rfl

theorem elem_map (f : α → α) (slot : Slot α) :
    (slot.map f).elem = slot.elem.map fun elem => (f elem.1, elem.2) := by
  cases slot <;> rfl

theorem isFree_of_isOccupied {slot : Slot α} (h : slot.isOccupied = true) :
    slot.isFree = false := by
  cases slot with
  | free => cases h
  | deleted => rfl
  | occupied data auto_free => rfl

theorem elem_of_vacant {slot : Slot α} (h : slot.isOccupied = false) : slot.elem = none := by
  cases slot with
  | free => rfl
  | deleted => rfl
  | occupied data auto_free => cases h

theorem isFree_of_vacant {slot : Slot α} (h : slot.isOccupied = false) :
    slot.isFree = !slot.isDeleted := by
  cases slot with
  | free => rfl
  | deleted => rfl
  | occupied data auto_free => cases h

end Slot

structure WvScatterHash (α : Type) where
  slots : List (Slot α)
  prime_index : Nat
  used : Nat := 0
  num : Nat := 0
  deriving DecidableEq

namespace WvScatterHash

def prime_numbers : List Nat :=
  [2, 5, 11, 17, 31, 67, 127, 251, 509, 1021, 2039, 4093, 8191, 16381, 32749, 65521, 131071, 262139,
    524287, 1048573, 2097143, 4194301, 8388593, 16777213, 33554393, 67108859, 134217689, 268435399,
    536870909, 1073741789, 2147483647, 4294967281]

variable {α κ : Type}

def numslots (t : WvScatterHash α) : Nat := t.slots.length

def count (t : WvScatterHash α) : Nat := t.num

def fresh (numslots prime_index : Nat) : WvScatterHash α where
  slots := List.replicate numslots .free
  prime_index

/-- The constructor; the loop in it counts the shifts until nothing is left. -/
def new (_numslots : Nat) : Option (WvScatterHash α) :=
  let prime_index := if _numslots = 0 then 0 else 1 + Nat.log2 _numslots
  prime_numbers[prime_index]?.map fun numslots => fresh numslots prime_index

def second_hash (numslots : Nat) (hash : UInt32) : Nat := hash.toNat % (numslots - 1) + 1

def curhash (numslots : Nat) (hash : UInt32) (hash2 attempt : Nat) : Nat :=
  (hash.toNat + attempt * hash2) % 2 ^ 32 % numslots

def place (numslots : Nat) (hash : UInt32) : Nat → Nat
  | 0 => hash.toNat % numslots
  | attempt + 1 => curhash numslots hash (second_hash numslots hash) (attempt + 1)

def slot (t : WvScatterHash α) (i : Nat) : Slot α := t.slots.getD i .free

/-- `numslots * REBUILD_LOAD_FACTOR <= used + 1`, where the factor is 0.45. The two sides are equal
for no prime number, so the rounding of the product does not matter. -/
def needs_rebuild (t : WvScatterHash α) : Bool := 9 * t.numslots ≤ 20 * (t.used + 1)

/-- `numslots * RESIZE_LOAD_FACTOR <= num + 1`, where the factor is 0.4. They are equal for 5 slots
only, where the double is exactly 2. -/
def needs_resize (t : WvScatterHash α) : Bool := 2 * t.numslots ≤ 5 * (t.num + 1)

/-- The attempt of `_add` to find a slot that is not occupied. -/
def vacant (t : WvScatterHash α) (hash : UInt32) (attempt : Nat) : Option Nat :=
  let slot := place t.numslots hash attempt
  if (t.slot slot).isOccupied then none else some slot

section Calls

variable [Accessor α κ] (fuel : Nat)

def fill (t : WvScatterHash α) (data : α) (auto_free : Bool) : Option (WvScatterHash α) :=
  (search (t.vacant (hash α (get_key data))) fuel 0).map fun slot =>
    { t with
      num := t.num + 1
      used := if (t.slot slot).isDeleted then t.used else t.used + 1
      slots := t.slots.set slot (.occupied data auto_free) }

def add_all (add : WvScatterHash α → α → Bool → Option (WvScatterHash α)) :
    List (Slot α) → WvScatterHash α → Option (WvScatterHash α)
  | [], t => some t
  | .occupied data auto_free :: tmp, t => (add t data auto_free).bind (add_all add tmp)
  | _ :: tmp, t => add_all add tmp t

/-- `rebuild`, given the `_add` that it calls. -/
def rebuild (add : WvScatterHash α → α → Bool → Option (WvScatterHash α)) (t : WvScatterHash α) :
    Option (WvScatterHash α) :=
  if !t.needs_rebuild then some t
  else
    let prime_index := if t.needs_resize then t.prime_index + 1 else t.prime_index
    (if t.needs_resize then prime_numbers[prime_index]? else some t.numslots).bind fun numslots =>
      add_all add t.slots (fresh numslots prime_index)

/-- `_add`, with a bound on how deep `rebuild` calls it again. -/
def add : Nat → WvScatterHash α → α → Bool → Option (WvScatterHash α)
  | 0, _, _, _ => none
  | depth + 1, t, data, auto_free =>
    (rebuild (add depth) t).bind fun t => fill fuel t data auto_free

variable [DecidableEq κ]

/-- The attempt of `genfind` to find a key. The loop ends at the key or at a slot that was never
used; there the answer is no slot, for `null_idx`. -/
def sought (t : WvScatterHash α) (key : κ) (attempt : Nat) : Option (Option Nat) :=
  let slot := place t.numslots (hash α key) attempt
  match t.slot slot with
  | .occupied data _ => if get_key data = key then some (some slot) else none
  | .deleted => none
  | .free => some none

def genfind (t : WvScatterHash α) (key : κ) : Option (Option Nat) := search (t.sought key) fuel 0

def genfind_or_null (t : WvScatterHash α) (key : κ) : Option (Option α) :=
  (genfind fuel t key).map fun slot => slot.bind fun slot => (t.slot slot).elem.map Prod.fst

def remove (t : WvScatterHash α) (data : α) : Option (WvScatterHash α) :=
  (genfind fuel t (get_key data)).map fun
    | none => t
    | some slot => { t with slots := t.slots.set slot .deleted, num := t.num - 1 }

end Calls

def zap (t : WvScatterHash α) : WvScatterHash α :=
  { t with slots := List.replicate t.numslots .free, used := 0, num := 0 }

/-- The elements are written to where they are. -/
def map (f : α → α) (t : WvScatterHash α) : WvScatterHash α :=
  { t with slots := t.slots.map (Slot.map f) }

/-! ## The places -/

def elems (t : WvScatterHash α) : Multiset (α × Bool) := content Slot.elem t.slots

theorem place_eq (numslots : Nat) (hash : UInt32) (attempt : Nat) :
    place numslots hash attempt =
      (hash.toNat + attempt * second_hash numslots hash) % 2 ^ 32 % numslots := by
  cases attempt with
  | zero =>
    rw [Nat.zero_mul, Nat.add_zero, Nat.mod_eq_of_lt hash.toNat_lt]
    rfl
  | succ attempt => rfl

theorem place_lt {numslots : Nat} (h : 0 < numslots) (hash : UInt32) (attempt : Nat) :
    place numslots hash attempt < numslots := by
  rw [place_eq]
  exact Nat.mod_lt _ h

/-- The sizes of which a cycle of strides is below `2 ^ 32`. -/
def sizes : List Nat := prime_numbers.take 16

theorem prime_of_mem_sizes {n : Nat} (h : n ∈ sizes) : n.Prime := by
  simp only [sizes, prime_numbers, take_succ_cons, take_zero, mem_cons, not_mem_nil, or_false] at h
  rcases h with rfl | rfl | rfl | rfl | rfl | rfl | rfl | rfl | rfl | rfl | rfl | rfl | rfl | rfl |
    rfl | rfl <;> norm_num

theorem le_of_mem_sizes : ∀ n ∈ sizes, n ≤ 65521 := by decide

theorem exists_place_eq {n : Nat} (hn : n ∈ sizes) (hash : UInt32) {r : Nat} (hr : r < n) :
    ∃ j < 2 * n, place n hash j = r := by
  have hprime := prime_of_mem_sizes hn
  have htwo := hprime.two_le
  have hle := le_of_mem_sizes n hn
  have hstride : second_hash n hash < n := by
    have hlt : hash.toNat % (n - 1) < n - 1 := Nat.mod_lt _ (by omega)
    rw [second_hash]
    omega
  have hcoprime : (second_hash n hash).Coprime n :=
    (hprime.coprime_iff_not_dvd.mpr (Nat.not_dvd_of_pos_of_lt (Nat.succ_pos _) hstride)).symm
  have hfits : second_hash n hash * n ≤ 2 ^ 32 :=
    calc second_hash n hash * n ≤ 65520 * 65521 := Nat.mul_le_mul (by omega) hle
      _ ≤ 2 ^ 32 := by decide
  obtain ⟨j, hj, hplace⟩ := exists_place hcoprime hfits hash.toNat_lt hr
  exact ⟨j, hj, (place_eq n hash j).trans hplace⟩

/-! ## Reachability -/

/-- Whatever an element's sequence passes in front of it was used. -/
def Reaches (t : WvScatterHash α) (hash : UInt32) (i : Nat) : Prop :=
  ∃ attempt, place t.numslots hash attempt = i ∧
    ∀ before < attempt, (t.slot (place t.numslots hash before)).isFree = false

variable [Accessor α κ]

structure Valid (t : WvScatterHash α) : Prop where
  size : t.numslots ∈ sizes
  index : sizes[t.prime_index]? = some t.numslots
  used : t.used = t.slots.countP fun slot => !slot.isFree
  num : t.num = t.elems.card
  reaches : ∀ i data auto_free, t.slots[i]? = some (.occupied data auto_free) →
    t.Reaches (hash α (get_key data)) i
  load : 20 * t.used < 9 * t.numslots

theorem slot_eq {t : WvScatterHash α} {i : Nat} {slot : Slot α} (h : t.slots[i]? = some slot) :
    t.slot i = slot := by
  rw [WvScatterHash.slot, getD_eq_getElem?_getD, h, getD_some]

theorem getElem?_slot {t : WvScatterHash α} {i : Nat} (hi : i < t.numslots) :
    t.slots[i]? = some (t.slot i) := by
  rw [WvScatterHash.slot, getD_eq_getElem?_getD, getElem?_eq_getElem hi, getD_some]

namespace Valid

variable {t : WvScatterHash α}

theorem numslots_pos (h : t.Valid) : 0 < t.numslots := (prime_of_mem_sizes h.size).pos

theorem exists_free (h : t.Valid) (hash : UInt32) :
    ∃ j < 2 * t.numslots, (t.slot (place t.numslots hash j)).isFree = true := by
  have hlt : t.slots.countP (fun slot => !slot.isFree) < t.slots.length := by
    have hload := h.load
    rw [h.used] at hload
    have hnum : t.numslots = t.slots.length := rfl
    omega
  obtain ⟨slot, hslot, hfree⟩ : ∃ slot ∈ t.slots, slot.isFree = true := by
    by_contra hnone
    push Not at hnone
    refine absurd (List.countP_eq_length.mpr fun slot hslot => ?_) (Nat.ne_of_lt hlt)
    simpa using hnone slot hslot
  obtain ⟨r, hr, hget⟩ := List.mem_iff_getElem.mp hslot
  obtain ⟨j, hj, hplace⟩ := exists_place_eq h.size hash hr
  refine ⟨j, hj, ?_⟩
  rw [hplace, slot_eq (List.getElem?_eq_some_iff.mpr ⟨hr, hget⟩), hfree]

end Valid

theorem slot_set {t : WvScatterHash α} {i : Nat} (hi : i < t.numslots) (new : Slot α)
    (used num j : Nat) :
    ({ t with slots := t.slots.set i new, used, num } : WvScatterHash α).slot j =
      if j = i then new else t.slot j := by
  rw [WvScatterHash.slot, WvScatterHash.slot, getD_eq_getElem?_getD, getElem?_set]
  by_cases hij : i = j
  · subst hij
    rw [if_pos rfl, if_pos (show i < t.slots.length from hi), if_pos rfl, getD_some]
  · rw [if_neg hij, if_neg (Ne.symm hij), getD_eq_getElem?_getD]

theorem mem_elems {t : WvScatterHash α} {data : α} {auto_free : Bool} :
    (data, auto_free) ∈ t.elems ↔ ∃ i : Nat, t.slots[i]? = some (.occupied data auto_free) := by
  rw [elems, mem_content]
  constructor
  · rintro ⟨i, slot, hi, hslot⟩
    cases slot with
    | free | deleted => cases hslot
    | occupied data' auto_free' =>
      cases hslot
      exact ⟨i, hi⟩
  · rintro ⟨i, hi⟩
    exact ⟨i, _, hi, rfl⟩

section Specs

variable {t : WvScatterHash α}

theorem Reaches.set {hash : UInt32} {i j : Nat} (h : t.Reaches hash j) (hi : i < t.numslots)
    {new : Slot α} (hnew : new.isFree = false) (used num : Nat) :
    ({ t with slots := t.slots.set i new, used, num } : WvScatterHash α).Reaches hash j := by
  obtain ⟨attempt, hplace, hbefore⟩ := h
  have hsize : (t.slots.set i new).length = t.slots.length := length_set
  refine ⟨attempt, by rw [numslots, hsize]; exact hplace, fun before hlt => ?_⟩
  rw [numslots, hsize, slot_set hi]
  split
  · exact hnew
  · exact hbefore before hlt

open Slot

theorem Valid.set (h : t.Valid) {i : Nat} {old new : Slot α} (hold : t.slots[i]? = some old)
    (hnew : new.isFree = false) (hreaches : ∀ data auto_free, new = .occupied data auto_free →
      t.Reaches (hash α (get_key data)) i) {used num : Nat}
    (hused : used = if old.isFree then t.used + 1 else t.used) (hload : 20 * used < 9 * t.numslots)
    (hnum : num = (content elem (t.slots.set i new)).card) :
    Valid { t with slots := t.slots.set i new, used, num } := by
  have hi : i < t.numslots := (List.getElem?_eq_some_iff.mp hold).1
  have hsize : (t.slots.set i new).length = t.numslots := List.length_set
  refine ⟨?_, ?_, ?_, hnum, fun j data auto_free hj => ?_, ?_⟩
  · rw [numslots, hsize]
    exact h.size
  · rw [numslots, hsize]
    exact h.index
  · obtain ⟨rest, hcount, hset⟩ := exists_countP (fun slot => !slot.isFree) hold
    have hbefore := h.used.trans hcount
    show used = _
    rw [hset new, hused, hnew]
    cases hfree : old.isFree <;> rw [hfree] at hbefore <;> simp at hbefore ⊢ <;> omega
  · refine Reaches.set ?_ hi hnew _ _
    have hslot := slot_eq hj
    rw [slot_set hi] at hslot
    split at hslot
    · rename_i hij
      rw [hij]
      exact hreaches data auto_free hslot
    · rename_i hij
      refine h.reaches j data auto_free ?_
      rwa [List.getElem?_set_ne (Ne.symm hij)] at hj
  · rw [numslots, hsize]
    exact hload

theorem Valid.exists_vacant (h : t.Valid) (hash : UInt32) {fuel : Nat}
    (hfuel : 2 * t.numslots ≤ fuel) :
    ∃ i < t.numslots, search (t.vacant hash) fuel 0 = some i ∧ (t.slot i).isOccupied = false ∧
      t.Reaches hash i := by
  obtain ⟨bound, hbound, hfree⟩ := h.exists_free hash
  have hanswer : t.vacant hash bound ≠ none := by
    rw [vacant, if_neg]
    · exact some_ne_none _
    · intro hslot
      rw [isFree_of_isOccupied hslot] at hfree
      cases hfree
  obtain ⟨attempt, i, -, hsearch, hfirst, hbefore⟩ :=
    exists_search (Nat.lt_of_lt_of_le hbound hfuel) hanswer
  rw [vacant] at hfirst
  split at hfirst
  · cases hfirst
  rename_i hvacant
  obtain rfl := some.inj hfirst
  refine ⟨_, place_lt h.numslots_pos hash attempt, hsearch, Bool.eq_false_iff.mpr hvacant, attempt,
    rfl, fun before hlt => ?_⟩
  have hpassed := hbefore before hlt
  rw [vacant] at hpassed
  split at hpassed
  · rename_i hslot
    exact isFree_of_isOccupied hslot
  · cases hpassed

theorem fill_spec (h : t.Valid) (hroom : 20 * (t.used + 1) < 9 * t.numslots) {fuel : Nat}
    (hfuel : 2 * t.numslots ≤ fuel) (data : α) (auto_free : Bool) :
    ∃ t', fill fuel t data auto_free = some t' ∧ t'.Valid ∧ t'.numslots = t.numslots ∧
      t'.prime_index = t.prime_index ∧ t'.used ≤ t.used + 1 ∧
      t'.elems = (data, auto_free) ::ₘ t.elems := by
  obtain ⟨i, hi, hsearch, hvacant, hreaches⟩ :=
    h.exists_vacant (hash α (get_key data)) hfuel
  have hold := getElem?_slot hi
  obtain ⟨rest, helems, hset⟩ := exists_rest elem hold
  rw [elem_of_vacant hvacant] at helems
  have helems' : content elem (t.slots.set i (.occupied data auto_free)) =
      (data, auto_free) ::ₘ t.elems := by
    rw [hset, elems, helems]
    rfl
  have hused : (if (t.slot i).isDeleted then t.used else t.used + 1) =
      if (t.slot i).isFree then t.used + 1 else t.used := by
    rw [isFree_of_vacant hvacant]
    cases (t.slot i).isDeleted <;> rfl
  have hle : (if (t.slot i).isDeleted then t.used else t.used + 1) ≤ t.used + 1 := by
    split <;> omega
  refine ⟨{ t with
    num := t.num + 1
    used := if (t.slot i).isDeleted then t.used else t.used + 1
    slots := t.slots.set i (.occupied data auto_free) }, by rw [fill, hsearch, map_some], ?_,
    length_set, rfl, hle, helems'⟩
  refine h.set hold rfl (fun data' auto_free' heq => ?_) hused (by omega) ?_
  · cases heq
    exact hreaches
  · rw [helems', Multiset.card_cons, h.num]

theorem numslots_fresh (n prime_index : Nat) :
    (fresh n prime_index : WvScatterHash α).numslots = n := length_replicate

theorem elems_fresh (n prime_index : Nat) : (fresh n prime_index : WvScatterHash α).elems = 0 := by
  rw [Multiset.eq_zero_iff_forall_notMem]
  rintro ⟨data, auto_free⟩ hdata
  obtain ⟨i, hi⟩ := mem_elems.mp hdata
  cases (mem_replicate.mp (mem_of_getElem? hi)).2

theorem valid_fresh {n prime_index : Nat} (hindex : sizes[prime_index]? = some n) :
    (fresh n prime_index : WvScatterHash α).Valid := by
  have hmem : n ∈ sizes := mem_of_getElem? hindex
  refine ⟨?_, ?_, ?_, ?_, fun i data auto_free hi => ?_, ?_⟩
  · rwa [numslots_fresh]
  · rwa [numslots_fresh]
  · show 0 = (replicate n free).countP _
    rw [countP_replicate]
    exact (if_neg Bool.false_ne_true).symm
  · rw [elems_fresh]
    rfl
  · cases (mem_replicate.mp (mem_of_getElem? hi)).2
  · rw [numslots_fresh]
    exact Nat.mul_pos (by decide) (prime_of_mem_sizes hmem).pos

theorem Valid.num_le_used (h : t.Valid) : t.num ≤ t.used := by
  rw [h.num, h.used, elems, content, Multiset.coe_card, length_filterMap_eq_countP]
  refine countP_mono_left fun slot _ hslot => ?_
  cases slot with
  | free => cases hslot
  | deleted => rfl
  | occupied data auto_free => rfl

/-- The array is about to be replaced by one of more slots than the list of `sizes` has. -/
def Outgrown (t : WvScatterHash α) : Prop :=
  t.needs_rebuild = true ∧ t.needs_resize = true ∧ sizes.length ≤ t.prime_index + 1

theorem not_outgrown (h : t.Valid) (hnum : t.num < 26208) : ¬ Outgrown t := by
  rintro ⟨-, hresize, hindex⟩
  have hget := h.index
  obtain ⟨hlt, -⟩ := List.getElem?_eq_some_iff.mp hget
  have hlength : sizes.length = 16 := rfl
  obtain hlast : t.prime_index = 15 := by omega
  rw [hlast] at hget
  have hsize : 65521 = t.numslots := some.inj hget
  rw [needs_resize, decide_eq_true_iff] at hresize
  omega

/-- What `rebuild` needs of the `_add` that it calls. -/
def Adds (add : WvScatterHash α → α → Bool → Option (WvScatterHash α)) : Prop :=
  ∀ (t : WvScatterHash α) data auto_free, t.Valid → 20 * (t.used + 1) < 9 * t.numslots →
    ∃ t', add t data auto_free = some t' ∧ t'.Valid ∧ t'.numslots = t.numslots ∧
      t'.prime_index = t.prime_index ∧ t'.used ≤ t.used + 1 ∧
      t'.elems = (data, auto_free) ::ₘ t.elems

theorem add_all_spec {add : WvScatterHash α → α → Bool → Option (WvScatterHash α)} (hadd : Adds add)
    (tmp : List (Slot α)) (h : t.Valid)
    (hroom : 20 * (t.used + (content elem tmp).card) < 9 * t.numslots) :
    ∃ t', add_all add tmp t = some t' ∧ t'.Valid ∧ t'.numslots = t.numslots ∧
      t'.prime_index = t.prime_index ∧ t'.used ≤ t.used + (content elem tmp).card ∧
      t'.elems = content elem tmp + t.elems := by
  induction tmp generalizing t with
  | nil => exact ⟨t, rfl, h, rfl, rfl, Nat.le_refl _, (Multiset.zero_add _).symm⟩
  | cons slot tmp ih =>
    cases slot with
    | free | deleted => exact ih h hroom
    | occupied data auto_free =>
      have hcons : content elem (.occupied data auto_free :: tmp) =
        (data, auto_free) ::ₘ content elem tmp := rfl
      rw [hcons, Multiset.card_cons] at hroom ⊢
      obtain ⟨t₁, hadd₁, h₁, hsize₁, hindex₁, hused₁, helems₁⟩ :=
        hadd t data auto_free h (by omega)
      obtain ⟨t₂, hadd₂, h₂, hsize₂, hindex₂, hused₂, helems₂⟩ := ih h₁ (by rw [hsize₁]; omega)
      refine ⟨t₂, ?_, h₂, hsize₂.trans hsize₁, hindex₂.trans hindex₁, by omega, ?_⟩
      · rw [add_all, hadd₁]
        exact hadd₂
      · rw [helems₂, helems₁, Multiset.add_cons, Multiset.cons_add]

theorem next_size : ∀ i < 15, ∀ n ∈ sizes[i]?, ∀ n' ∈ sizes[i + 1]?, n + 3 ≤ n' := by decide

theorem add_all_fresh {add : WvScatterHash α → α → Bool → Option (WvScatterHash α)}
    (hadd : Adds add) (h : t.Valid) {n prime_index : Nat} (hindex : sizes[prime_index]? = some n)
    (hroom : 20 * (t.num + 1) < 9 * n) :
    ∃ t', add_all add t.slots (fresh n prime_index) = some t' ∧ t'.Valid ∧
      20 * (t'.used + 1) < 9 * t'.numslots ∧ t'.elems = t.elems := by
  have hcard : (content elem t.slots).card = t.num := h.num.symm
  have hused : (fresh n prime_index : WvScatterHash α).used = 0 := rfl
  obtain ⟨t', hall, h', hsize', -, hused', helems'⟩ :=
    add_all_spec hadd t.slots (valid_fresh hindex) (by
      rw [numslots_fresh, hcard, hused]
      omega)
  refine ⟨t', hall, h', ?_, ?_⟩
  · rw [hsize', numslots_fresh]
    rw [hcard, hused] at hused'
    omega
  · rw [helems', elems_fresh, Multiset.add_zero]
    rfl

theorem rebuild_spec {add : WvScatterHash α → α → Bool → Option (WvScatterHash α)} (hadd : Adds add)
    (h : t.Valid) (hfits : ¬ Outgrown t) :
    ∃ t', rebuild add t = some t' ∧ t'.Valid ∧ 20 * (t'.used + 1) < 9 * t'.numslots ∧
      t'.elems = t.elems := by
  rw [rebuild]
  cases hrebuild : t.needs_rebuild with
  | false =>
    refine ⟨t, rfl, h, ?_, rfl⟩
    rw [needs_rebuild, decide_eq_false_iff_not] at hrebuild
    omega
  | true =>
    cases hresize : t.needs_resize with
    | false =>
      rw [needs_resize, decide_eq_false_iff_not] at hresize
      exact add_all_fresh hadd h h.index (by omega)
    | true =>
      have hlt : t.prime_index + 1 < sizes.length := by
        by_contra hle
        exact hfits ⟨hrebuild, hresize, Nat.le_of_not_lt hle⟩
      have hindex := getElem?_eq_getElem hlt
      have hnext := next_size t.prime_index (Nat.lt_of_succ_lt_succ hlt) t.numslots h.index _ hindex
      generalize sizes[t.prime_index + 1] = n at hindex hnext
      have hprime : prime_numbers[t.prime_index + 1]? = some n := by
        rw [← hindex]
        exact (getElem?_take_of_lt (l := prime_numbers) hlt).symm
      have hnum := h.num_le_used
      have hload := h.load
      obtain ⟨t', hall, h', hroom', helems'⟩ := add_all_fresh hadd h hindex (by omega)
      refine ⟨t', ?_, h', hroom', helems'⟩
      show (prime_numbers[t.prime_index + 1]?.bind _) = _
      rw [hprime]
      exact hall

theorem fuel_of_valid {fuel : Nat} (hfuel : 2 * 65521 ≤ fuel) (h : t.Valid) :
    2 * t.numslots ≤ fuel := by
  have hle := le_of_mem_sizes _ h.size
  omega

theorem adds_add {fuel : Nat} (hfuel : 2 * 65521 ≤ fuel) (depth : Nat) :
    Adds (add (α := α) fuel (depth + 1)) := by
  intro t data auto_free h hroom
  have hneeds : t.needs_rebuild = false := by
    rw [needs_rebuild, decide_eq_false_iff_not]
    omega
  rw [add, rebuild, hneeds]
  exact fill_spec h hroom (fuel_of_valid hfuel h) data auto_free

theorem add_spec {fuel : Nat} (hfuel : 2 * 65521 ≤ fuel) (depth : Nat) (h : t.Valid)
    (hfits : ¬ Outgrown t) (data : α) (auto_free : Bool) :
    ∃ t', add fuel (depth + 2) t data auto_free = some t' ∧ t'.Valid ∧
      t'.elems = (data, auto_free) ::ₘ t.elems := by
  obtain ⟨t₁, hrebuild, h₁, hroom₁, helems₁⟩ := rebuild_spec (adds_add hfuel depth) h hfits
  obtain ⟨t₂, hfilled, h₂, -, -, -, helems₂⟩ :=
    fill_spec h₁ hroom₁ (fuel_of_valid hfuel h₁) data auto_free
  refine ⟨t₂, ?_, h₂, helems₂.trans (by rw [helems₁])⟩
  rw [add, hrebuild]
  exact hfilled

variable [DecidableEq κ]

theorem sought_eq_none {key : κ} {attempt : Nat} :
    t.sought key attempt = none ↔
      (t.slot (place t.numslots (hash α key) attempt)).isFree = false ∧
        ∀ data auto_free, t.slot (place t.numslots (hash α key) attempt) =
          .occupied data auto_free → get_key data ≠ key := by
  rw [sought]
  cases t.slot (place t.numslots (hash α key) attempt) with
  | free => exact iff_of_false (some_ne_none _) fun h => Bool.noConfusion h.1
  | deleted => exact iff_of_true rfl ⟨rfl, nofun⟩
  | occupied data auto_free =>
    by_cases hkey : get_key data = key
    · simp [hkey]
    · simp [hkey, isFree]

theorem genfind_spec (h : t.Valid) {fuel : Nat} (hfuel : 2 * t.numslots ≤ fuel) (key : κ) :
    (∃ i data auto_free, genfind fuel t key = some (some i) ∧
        t.slots[i]? = some (.occupied data auto_free) ∧ get_key data = key) ∨
      genfind fuel t key = some none ∧ ∀ elem ∈ t.elems, get_key elem.1 ≠ key := by
  obtain ⟨bound, hbound, hfree⟩ := h.exists_free (hash α key)
  have hanswer : t.sought key bound ≠ none := fun hnone => by
    rw [(sought_eq_none.mp hnone).1] at hfree
    cases hfree
  obtain ⟨attempt, answer, -, hsearch, hfirst, hbefore⟩ :=
    exists_search (Nat.lt_of_lt_of_le hbound hfuel) hanswer
  have hi := place_lt h.numslots_pos (hash α key) attempt
  rw [genfind, hsearch]
  have hcase := hfirst
  rw [sought] at hcase
  cases hslot : t.slot (place t.numslots (hash α key) attempt) with
  | deleted =>
    rw [hslot] at hcase
    cases hcase
  | occupied data auto_free =>
    rw [hslot] at hcase
    dsimp only at hcase
    split at hcase
    · rename_i hkey
      exact Or.inl ⟨_, data, auto_free, congrArg some (some.inj hcase).symm,
        (getElem?_slot hi).trans (congrArg some hslot), hkey⟩
    · cases hcase
  | free =>
    rw [hslot] at hcase
    refine Or.inr ⟨congrArg some (some.inj hcase).symm, ?_⟩
    -- an element with the key would be in front of the free slot
    rintro ⟨data, auto_free⟩ hdata rfl
    obtain ⟨i, hget⟩ := mem_elems.mp hdata
    obtain ⟨attempt', hplace, hpassed⟩ := h.reaches i data auto_free hget
    rcases Nat.lt_trichotomy attempt' attempt with hlt | rfl | hlt
    · have hnone := (sought_eq_none.mp (hbefore attempt' hlt)).2 data auto_free
      rw [hplace, slot_eq hget] at hnone
      exact hnone rfl rfl
    · rw [hplace, slot_eq hget] at hslot
      cases hslot
    · have hused := hpassed attempt hlt
      rw [hslot] at hused
      cases hused

theorem genfind_or_null_spec (h : t.Valid) {fuel : Nat} (hfuel : 2 * t.numslots ≤ fuel) (key : κ) :
    ∃ found, genfind_or_null fuel t key = some found ∧
      (∀ data ∈ found, get_key data = key ∧ ∃ auto_free, (data, auto_free) ∈ t.elems) ∧
      (found = none → ∀ elem ∈ t.elems, get_key elem.1 ≠ key) := by
  rw [genfind_or_null]
  rcases genfind_spec h hfuel key with ⟨i, data, auto_free, hfind, hget, hkey⟩ | ⟨hfind, hnone⟩
  · rw [hfind]
    refine ⟨some data, ?_, ?_, nofun⟩
    · rw [map_some, bind_some, slot_eq hget]
      rfl
    · intro data' hdata
      cases hdata
      exact ⟨hkey, auto_free, mem_elems.mpr ⟨i, hget⟩⟩
  · rw [hfind]
    exact ⟨none, rfl, fun _ h => (not_mem_none _ h).elim, fun _ => hnone⟩

theorem remove_spec (h : t.Valid) {fuel : Nat} (hfuel : 2 * t.numslots ≤ fuel) (data : α) :
    ∃ t', remove fuel t data = some t' ∧ t'.Valid ∧
      ((∃ elem, get_key elem.1 = get_key data ∧ t.elems = elem ::ₘ t'.elems) ∨
        t' = t ∧ ∀ elem ∈ t.elems, get_key elem.1 ≠ get_key data) := by
  rw [remove]
  rcases genfind_spec h hfuel (get_key data) with ⟨i, found, auto_free, hfind, hget, hkey⟩ |
    ⟨hfind, hnone⟩
  · rw [hfind]
    obtain ⟨rest, helems, hset⟩ := exists_rest elem hget
    have hrest : content elem (t.slots.set i .deleted) = rest := hset .deleted
    have hcons : t.elems = (found, auto_free) ::ₘ rest := helems
    refine ⟨_, rfl, ?_, Or.inl ⟨(found, auto_free), hkey, ?_⟩⟩
    · refine h.set hget rfl (fun _ _ heq => by cases heq) rfl h.load ?_
      rw [hrest, h.num, hcons, Multiset.card_cons, Nat.add_sub_cancel]
    · rw [hcons]
      exact congrArg _ hrest.symm
  · rw [hfind]
    exact ⟨t, rfl, h, Or.inr ⟨rfl, hnone⟩⟩

omit [DecidableEq κ] in
theorem zap_spec (h : t.Valid) : t.zap.Valid ∧ t.zap.elems = 0 :=
  ⟨valid_fresh h.index, elems_fresh t.numslots t.prime_index⟩

omit [DecidableEq κ] in
theorem map_spec (h : t.Valid) {f : α → α}
    (hf : ∀ elem ∈ t.elems, get_key (f elem.1) = get_key elem.1) :
    (t.map f).Valid ∧ (t.map f).elems = t.elems.map fun elem => (f elem.1, elem.2) := by
  have hsize : (t.map f).numslots = t.numslots := length_map _
  have hslot : ∀ i, (t.map f).slot i = (t.slot i).map f := by
    intro i
    rw [slot, slot, map, getD_eq_getElem?_getD, getD_eq_getElem?_getD, getElem?_map]
    cases t.slots[i]? <;> rfl
  have helems : (t.map f).elems = t.elems.map fun elem => (f elem.1, elem.2) := by
    rw [elems, elems, content, content, map, Multiset.map_coe, filterMap_map, map_filterMap]
    exact congrArg _ (filterMap_congr fun slot _ => Slot.elem_map f slot)
  refine ⟨⟨by rw [hsize]; exact h.size, by rw [hsize]; exact h.index, ?_, ?_, ?_, ?_⟩, helems⟩
  · show t.used = (t.slots.map (Slot.map f)).countP _
    rw [h.used, countP_map]
    exact countP_congr fun slot _ => by rw [Function.comp_apply, Slot.isFree_map]
  · rw [helems, Multiset.card_map]
    exact h.num
  · intro i data auto_free hget
    have hmapped : (t.slots[i]?).map (Slot.map f) = some (.occupied data auto_free) := by
      rw [← getElem?_map]
      exact hget
    obtain ⟨old, hold, heq⟩ := map_eq_some_iff.mp hmapped
    cases old with
    | free | deleted => cases heq
    | occupied data' auto_free' =>
      cases heq
      obtain ⟨attempt, hplace, hbefore⟩ := h.reaches i data' auto_free hold
      rw [hf _ (mem_elems.mpr ⟨i, hold⟩)]
      refine ⟨attempt, by rw [hsize]; exact hplace, fun before hlt => ?_⟩
      rw [hsize, hslot, Slot.isFree_map]
      exact hbefore before hlt
  · rw [hsize]
    exact h.load

/-! ## Runs -/

inductive Call (α κ : Type) where
  | add (data : α) (auto_free : Bool)
  | remove (data : α)
  | find (key : κ)
  | zap

def machine (fuel depth : Nat) : Machine (WvScatterHash α) (Call α κ) (Option α) where
  step t
    | .add data auto_free => (add fuel depth t data auto_free).map fun t => (t, none)
    | .remove data => (remove fuel t data).map fun t => (t, none)
    | .find key => (genfind_or_null fuel t key).map fun found => (t, found)
    | .zap => some (t.zap, none)

def follow (keys : Multiset κ) : Call α κ → Multiset κ
  | .add data _ => get_key data ::ₘ keys
  | .remove data => keys.erase (get_key data)
  | .find _ => keys
  | .zap => 0

/-- The table and the keys, side by side. -/
def beside (fuel depth : Nat) : Machine (WvScatterHash α × Multiset κ) (Call α κ) (Option α) where
  step p call := ((machine fuel depth).step p.1 call).map fun (t, out) =>
    ((t, follow p.2 call), out)

/-- An `add` does not need more than 65521 slots. -/
def Fits (t : WvScatterHash α) : Call α κ → Prop
  | .add _ _ => ¬ Outgrown t
  | _ => True

/-- The key is one of the keys exactly if an element with it is found. -/
def Finds (t : WvScatterHash α) (keys : Multiset κ) : Call α κ → Option α → Prop
  | .find key, found => (key ∈ keys ↔ found ≠ none) ∧
    ∀ data ∈ found, get_key data = key ∧ ∃ auto_free, (data, auto_free) ∈ t.elems
  | .add _ _, found => found = none
  | .remove _, found => found = none
  | .zap, found => found = none

def keys (t : WvScatterHash α) : Multiset κ := t.elems.map fun elem => get_key elem.1

omit [DecidableEq κ] in
theorem mem_keys {t : WvScatterHash α} {key : κ} :
    key ∈ t.keys ↔ ∃ elem ∈ t.elems, get_key elem.1 = key := Multiset.mem_map

theorem beside_step {p : WvScatterHash α × Multiset κ} (h : p.1.Valid) (hkeys : p.1.keys = p.2)
    {fuel : Nat} (hfuel : 2 * 65521 ≤ fuel) (depth : Nat) {call : Call α κ}
    (hfits : p.1.Fits call) :
    ∃ t' out, (beside fuel (depth + 2)).step p call = some ((t', follow p.2 call), out) ∧
      t'.Valid ∧ t'.keys = follow p.2 call ∧ p.1.Finds p.2 call out := by
  obtain ⟨t, m⟩ := p
  dsimp only at h hkeys hfits ⊢
  subst hkeys
  have hbound := fuel_of_valid hfuel h
  cases call with
  | add data auto_free =>
    obtain ⟨t', hadd, h', helems⟩ := add_spec hfuel depth h hfits data auto_free
    refine ⟨t', none, ?_, h', ?_, rfl⟩
    · simp only [beside, machine, hadd, map_some]
    · rw [keys, helems, Multiset.map_cons]
      rfl
  | remove data =>
    obtain ⟨t', hremove, h', hcase⟩ := remove_spec h hbound data
    refine ⟨t', none, ?_, h', ?_, rfl⟩
    · simp only [beside, machine, hremove, map_some]
    · show t'.keys = t.keys.erase (get_key data)
      rcases hcase with ⟨elem, hkey, helems⟩ | ⟨rfl, hnone⟩
      · rw [keys, keys, helems, Multiset.map_cons, hkey, Multiset.erase_cons_head]
      · refine (Multiset.erase_of_notMem fun hmem => ?_).symm
        obtain ⟨elem, helem, hkey⟩ := mem_keys.mp hmem
        exact hnone elem helem hkey
  | find key =>
    obtain ⟨found, hfind, hsome, hnone⟩ := genfind_or_null_spec h hbound key
    refine ⟨t, found, ?_, h, rfl, ⟨fun hmem hfound => ?_, fun hfound => ?_⟩, hsome⟩
    · simp only [beside, machine, hfind, map_some]
    · obtain ⟨elem, helem, hkey⟩ := mem_keys.mp hmem
      exact hnone hfound elem helem hkey
    · obtain ⟨data, hdata⟩ := ne_none_iff_exists'.mp hfound
      obtain ⟨hkey, auto_free, hmem⟩ := hsome data hdata
      exact mem_keys.mpr ⟨_, hmem, hkey⟩
  | zap =>
    obtain ⟨h', helems⟩ := zap_spec h
    refine ⟨t.zap, none, rfl, h', ?_, rfl⟩
    rw [keys, helems]
    rfl

theorem sizes_of_le : ∀ i < 32, ∀ n ∈ prime_numbers[i]?, n ≤ 65521 → sizes[i]? = some n := by
  decide

omit [DecidableEq κ] in
theorem valid_new {_numslots : Nat} {t : WvScatterHash α} (hnew : new _numslots = some t)
    (hsize : t.numslots ≤ 65521) : t.Valid ∧ t.elems = 0 := by
  obtain ⟨n, hn, rfl⟩ := map_eq_some_iff.mp hnew
  rw [numslots_fresh] at hsize
  have hindex := sizes_of_le _ (List.getElem?_eq_some_iff.mp hn).1 n hn hsize
  exact ⟨valid_fresh hindex, elems_fresh _ _⟩

/-- From an empty table with any hash function, while no more than 65521 slots are needed: no search
goes on for ever, a key is found exactly if an element with it was added and not removed, the count
is the number of these elements, and a `rebuild` gives the same elements. -/
theorem multiset_of_keys {_numslots fuel : Nat} (hfuel : 2 * 65521 ≤ fuel) (depth : Nat)
    {t : WvScatterHash α} (hnew : new _numslots = some t) (hsize : t.numslots ≤ 65521)
    {calls : List (Call α κ)}
    (hcalls : (beside fuel (depth + 2)).Along (fun p call => p.1.Fits call) (t, 0) calls) :
    (beside fuel (depth + 2)).Runs (fun p call p' out =>
      p'.2 = follow p.2 call ∧ p'.1.keys = p'.2 ∧ p'.1.count = p'.2.card ∧ p.1.Finds p.2 call out ∧
        (¬ Outgrown p'.1 → ∃ t', rebuild (add fuel (depth + 1)) p'.1 = some t' ∧
          t'.elems = p'.1.elems)) (t, 0) calls := by
  obtain ⟨hvalid, hempty⟩ := valid_new hnew hsize
  have hstart : t.Valid ∧ t.keys = 0 := ⟨hvalid, by rw [keys, hempty]; rfl⟩
  refine @Machine.runs_of_along _ _ _ _ _ _ (fun p => p.1.Valid ∧ p.1.keys = p.2) ?_ _ hstart _
    hcalls
  rintro p call ⟨h, hkeys⟩ hfits
  obtain ⟨t', out, hstep, h', hkeys', hfinds⟩ := beside_step h hkeys hfuel depth hfits
  refine ⟨_, out, hstep, ⟨rfl, hkeys', ?_, hfinds, fun hroom => ?_⟩, h', hkeys'⟩
  · rw [count, h'.num, ← hkeys', keys, Multiset.card_map]
  · obtain ⟨t₁, hrebuild, -, -, helems⟩ := rebuild_spec (adds_add hfuel depth) h' hroom
    exact ⟨t₁, hrebuild, helems⟩

omit [Accessor α κ] [DecidableEq κ] in
instance (t : WvScatterHash α) : Decidable t.Outgrown :=
  inferInstanceAs (Decidable (_ ∧ _ ∧ _))

instance (t : WvScatterHash α) : (call : Call α κ) → Decidable (t.Fits call)
  | .add _ _ => inferInstanceAs (Decidable (¬ Outgrown t))
  | .remove _ => inferInstanceAs (Decidable True)
  | .find _ => inferInstanceAs (Decidable True)
  | .zap => inferInstanceAs (Decidable True)

end Specs

/-- `DeclareWvScatterTable`: an element is its own key. -/
abbrev table (hash : α → UInt32) : Accessor α α := ⟨id, hash⟩

/-- All elements have the same places. -/
theorem multiset_of_keys_collisions :
    (@beside Nat Nat (table fun _ => 4294967295) _ 131042 2).Runs (fun p call p' out =>
      p'.2 = @follow Nat Nat (table fun _ => 4294967295) _ p.2 call ∧
        @keys Nat Nat (table fun _ => 4294967295) p'.1 = p'.2 ∧ p'.1.count = p'.2.card ∧
        @Finds Nat Nat (table fun _ => 4294967295) p.1 p.2 call out ∧
        (¬ Outgrown p'.1 → ∃ t', @rebuild Nat
          (@add Nat Nat (table fun _ => 4294967295) 131042 1) p'.1 = some t' ∧
          t'.elems = p'.1.elems)) (fresh 2 0, 0)
      [.add 1 false, .add 2 true, .add 1 false, .remove 1, .find 1, .add 3 true, .find 2, .zap] :=
  @multiset_of_keys Nat Nat (table fun _ => 4294967295) _ 0 131042 (by decide) 0 _ rfl (by decide) _
    (by decide +kernel)

end WvScatterHash

end WvStreams
