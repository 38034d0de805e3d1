import WvStreams.Strings.StringMask
import Mathlib.Data.List.Induction
import Mathlib.Data.Option.Basic

/-!
# `WvStringMask` as an array

The object has a flag for each of the 256 characters. A lookup takes its character for an
`unsigned char`, but an update makes an `unsigned` of a `char`, which is signed: from 128 on, that
is far behind the array. A mask is the set of characters that it was given exactly as long as it
is not given such a character (`holds_iff`).
-/

namespace WvStreams

open Option

/-- The members of a `WvStringMask`. -/
structure MaskArray where
  _set : Vector Bool 256
  _first : Byte

namespace MaskArray

/-- `unsigned(c)` for a `char`. -/
def unsigned (c : Byte) : Nat := (c.toInt8.toInt % 2 ^ 32).toNat

/-- `operator[]`, which converts to `unsigned char`. -/
def get (m : MaskArray) (c : Byte) : Option Bool := m._set[c.toNat]?

def zap : MaskArray := ⟨Vector.replicate 256 false, 0⟩

/-- A store behind the end of the array is an error. -/
def store (flags : Vector Bool 256) (c : Byte) (value : Bool) : Option (Vector Bool 256) :=
  if h : unsigned c < 256 then some (flags.set (unsigned c) value h) else none

def setChar (m : MaskArray) (c : Byte) (value : Bool) : Option MaskArray :=
  let first := if m._first = 0 then c else m._first
  (store m._set c value).map fun flags => ⟨flags, first⟩

def setLoop (value : Bool) (flags : Vector Bool 256) : Str → Option (Vector Bool 256)
  | [] => some flags
  | c :: s => (store flags c value).bind fun flags => setLoop value flags s

def setString (m : MaskArray) (s : WvString) (value : Bool) : Option MaskArray :=
  match s with
  | none => some m
  | some s =>
    let first := if m._first = 0 then s.headD 0 else m._first
    (setLoop value m._set s).map fun flags => ⟨flags, first⟩

def ofString (s : WvString) : Option MaskArray := setString zap s true

def ofChar (c : Byte) : Option MaskArray := setChar zap c true

theorem unsigned_eq (c : Byte) :
    unsigned c = if c < 128 then c.toNat else c.toNat + (2 ^ 32 - 256) := by
  have hless : c < 128 ↔ c.toNat < 128 := UInt8.lt_iff_toNat_lt
  have hbound : c.toNat < 256 := c.toNat_lt
  have hint : c.toInt8.toInt = if 2 * c.toNat < 256 then (c.toNat : Int) else c.toNat - 256 := by
    rw [← Int8.toInt_toBitVec, UInt8.toBitVec_toInt8, BitVec.toInt_eq_toNat_cond]
    rfl
  rw [unsigned, hint]
  simp only [hless]
  split <;> split <;> omega

theorem unsigned_lt_iff (c : Byte) : unsigned c < 256 ↔ c < 128 := by
  have hbound : c.toNat < 256 := c.toNat_lt
  rw [unsigned_eq]
  split
  · rename_i h
    exact iff_of_true hbound h
  · rename_i h
    exact iff_of_false (by omega) h

theorem unsigned_of_lt {c : Byte} (h : c < 128) : unsigned c = c.toNat := by
  rw [unsigned_eq, if_pos h]

theorem store_of_lt (flags : Vector Bool 256) {c : Byte} (h : c < 128) (value : Bool) :
    ∃ flags', store flags c value = some flags' ∧
      ∀ d : Byte, flags'[d.toNat]? = if d = c then some value else flags[d.toNat]? := by
  have hlt : unsigned c < 256 := (unsigned_lt_iff c).mpr h
  refine ⟨flags.set (unsigned c) value hlt, dif_pos hlt, fun d => ?_⟩
  have hsame : unsigned c = d.toNat ↔ d = c := by
    rw [unsigned_of_lt h, UInt8.toNat_inj, eq_comm]
  rw [Vector.getElem?_set hlt]
  simp only [hsame]

theorem store_of_not_lt (flags : Vector Bool 256) {c : Byte} (h : ¬ c < 128) (value : Bool) :
    store flags c value = none := dif_neg fun hlt => h ((unsigned_lt_iff c).mp hlt)

theorem setLoop_of_lt (value : Bool) {s : Str} (hs : ∀ c ∈ s, c < 128) (flags : Vector Bool 256) :
    ∃ flags', setLoop value flags s = some flags' ∧
      ∀ d : Byte, flags'[d.toNat]? = if d ∈ s then some value else flags[d.toNat]? := by
  induction s generalizing flags with
  | nil => exact ⟨flags, rfl, fun d => (if_neg List.not_mem_nil).symm⟩
  | cons c s ih =>
    obtain ⟨hc, hs⟩ := List.forall_mem_cons.mp hs
    obtain ⟨flags', hstore, hget⟩ := store_of_lt flags hc value
    obtain ⟨flags'', hloop, hget'⟩ := ih hs flags'
    refine ⟨flags'', ?_, fun d => ?_⟩
    · rw [setLoop, hstore, bind_some, hloop]
    · rw [hget', hget]
      by_cases hmem : d ∈ s
      · rw [if_pos hmem, if_pos (List.mem_cons_of_mem c hmem)]
      · simp only [List.mem_cons, hmem, or_false, if_false]

theorem setLoop_of_not_lt (value : Bool) {s : Str} (hs : ¬ ∀ c ∈ s, c < 128)
    (flags : Vector Bool 256) : setLoop value flags s = none := by
  induction s generalizing flags with
  | nil => exact absurd (List.forall_mem_nil _) hs
  | cons c s ih =>
    rw [setLoop]
    by_cases hc : c < 128
    · obtain ⟨flags', hstore, -⟩ := store_of_lt flags hc value
      have hrest : ¬ ∀ c ∈ s, c < 128 := fun h => hs (List.forall_mem_cons.mpr ⟨hc, h⟩)
      rw [hstore, bind_some, ih hrest]
    · rw [store_of_not_lt flags hc, bind_none]

open List

inductive Call where
  | setChar (c : Byte) (value : Bool)
  | setString (s : WvString) (value : Bool)
  | zap
  deriving DecidableEq

namespace Call

def chars : Call → Str
  | .setChar c _ => [c]
  | .setString s _ => s.getD []
  | .zap => []

/-- What the call makes of the flag of a character, if anything. -/
def value (c : Byte) : Call → Option Bool
  | .setChar d value => if c = d then some value else none
  | .setString s value => if c ∈ s.getD [] then some value else none
  | .zap => some false

/-- The call takes no character out of the set, apart from `zap`. -/
def Adds : Call → Prop
  | .setChar _ value => value = true
  | .setString _ value => value = true
  | .zap => True

end Call

def step (m : MaskArray) : Call → Option MaskArray
  | .setChar c value => m.setChar c value
  | .setString s value => m.setString s value
  | .zap => some zap

def run (calls : List Call) : Option MaskArray := calls.foldlM step zap

/-- The value of the last call that says something of the character. -/
def member (calls : List Call) (c : Byte) : Bool :=
  (calls.reverse.findSome? (Call.value c)).getD false

/-- The calls stay inside the array and give the set. -/
structure Holds (calls : List Call) (m : MaskArray) : Prop where
  get_eq : ∀ c, m.get c = some (member calls c)
  first : (∀ call ∈ calls, call.Adds) → (∃ c, c ≠ 0 ∧ member calls c = true) →
    m.get m._first = some true

theorem member_concat (calls : List Call) (call : Call) (c : Byte) :
    member (calls ++ [call]) c = (call.value c).getD (member calls c) := by
  rw [member, member, reverse_append, reverse_singleton, singleton_append, findSome?_cons]
  cases call.value c <;> rfl

/-- What a call does: to each flag, and to the first character, which stays once it is there. -/
structure Steps (m : MaskArray) (call : Call) (m' : MaskArray) : Prop where
  get_eq : ∀ c, m'.get c = (call.value c).elim (m.get c) some
  first : m'._first = if call = .zap then 0
    else if m._first = 0 then call.chars.headD 0 else m._first

theorem get_zap (c : Byte) : zap.get c = some false := by
  have hbound : c.toNat < 256 := c.toNat_lt
  simp [zap, get, hbound]

variable {call : Call} {calls : List Call}

theorem step_spec (m : MaskArray) (h : ∀ c ∈ call.chars, c < 128) :
    ∃ m', step m call = some m' ∧ Steps m call m' := by
  cases call with
  | setChar c value =>
    obtain ⟨flags, hstore, hget⟩ := store_of_lt m._set (h c mem_cons_self) value
    refine ⟨⟨flags, _⟩, ?_, fun d => ?_, rfl⟩
    · rw [step, setChar, hstore]
      rfl
    · rw [get, hget, Call.value, get]
      split <;> rfl
  | setString s value =>
    cases s with
    | none =>
      refine ⟨m, rfl, fun c => rfl, ?_⟩
      by_cases hzero : m._first = 0
      · rw [if_neg nofun, if_pos hzero, hzero]
        rfl
      · rw [if_neg nofun, if_neg hzero]
    | some s =>
      have hs : ∀ c ∈ s, c < 128 := h
      obtain ⟨flags, hloop, hget⟩ := setLoop_of_lt value hs m._set
      refine ⟨⟨flags, _⟩, ?_, fun d => ?_, rfl⟩
      · rw [step, setString, hloop]
        rfl
      · rw [get, hget, Call.value, get, getD_some]
        split <;> rfl
  | zap =>
    refine ⟨zap, rfl, fun c => ?_, rfl⟩
    rw [get_zap]
    rfl

theorem step_of_not_lt (m : MaskArray) (h : ¬ ∀ c ∈ call.chars, c < 128) : step m call = none := by
  cases call with
  | setChar c value =>
    have hc : ¬ c < 128 := fun hc => h (forall_mem_singleton.mpr hc)
    rw [step, setChar, store_of_not_lt _ hc]
    rfl
  | setString s value =>
    cases s with
    | none => exact absurd (forall_mem_nil _) h
    | some s =>
      have hs : ¬ ∀ c ∈ s, c < 128 := h
      rw [step, setString, setLoop_of_not_lt value hs]
      rfl
  | zap => exact absurd (forall_mem_nil _) h

theorem run_concat (calls : List Call) (call : Call) :
    run (calls ++ [call]) = (run calls).bind fun m => step m call := by
  rw [run, foldlM_append]
  simp [run]

/-- As long as no character is taken out, the first character is in the set once there is one. -/
def Led (calls : List Call) (first : Byte) : Prop :=
  (first ≠ 0 ∨ ∃ c, c ≠ 0 ∧ member calls c = true) → member calls first = true

theorem Call.value_of_adds (hadds : call.Adds) (hset : call ≠ .zap) (c : Byte) :
    call.value c = if c ∈ call.chars then some true else none := by
  cases call with
  | setChar d value =>
    rw [show value = true from hadds]
    simp [Call.value, Call.chars]
  | setString s value =>
    rw [show value = true from hadds]
    rfl
  | zap => exact absurd rfl hset

theorem Led.concat {m m' : MaskArray} (h : Led calls m._first) (hadds : call.Adds)
    (hsteps : Steps m call m') : Led (calls ++ [call]) m'._first := by
  intro hsome
  have hfirst := hsteps.first
  rw [member_concat]
  by_cases hzap : call = .zap
  · -- nothing is in the set, and there is no first character
    rw [if_pos hzap] at hfirst
    rcases hsome with hne | ⟨c, -, hc⟩
    · exact absurd hfirst hne
    · rw [member_concat, hzap] at hc
      cases hc
  · rw [if_neg hzap] at hfirst
    rw [Call.value_of_adds hadds hzap]
    by_cases hzero : m._first = 0
    · rw [if_pos hzero] at hfirst
      cases hchars : call.chars with
      | nil =>
        -- nothing has changed
        rw [hchars] at hfirst
        rw [if_neg not_mem_nil, getD_none, hfirst]
        show member calls 0 = true
        rw [← hzero]
        apply h
        rcases hsome with hne | ⟨c, hne, hc⟩
        · exact absurd hfirst hne
        · rw [member_concat, Call.value_of_adds hadds hzap, hchars, if_neg not_mem_nil] at hc
          exact Or.inr ⟨c, hne, hc⟩
      | cons c s =>
        rw [hchars] at hfirst
        rw [hfirst, headD_cons, if_pos mem_cons_self, getD_some]
    · rw [if_neg hzero] at hfirst
      rw [hfirst, h (Or.inl hzero)]
      split <;> rfl

/-- The invariant of a run: the flags are those of the set, and the first character leads them. -/
structure Inv (calls : List Call) (m : MaskArray) : Prop where
  get_eq : ∀ c, m.get c = some (member calls c)
  led : (∀ call ∈ calls, call.Adds) → Led calls m._first

theorem Inv.step {calls : List Call} {m m' : MaskArray} {call : Call} (h : Inv calls m)
    (hsteps : Steps m call m') : Inv (calls ++ [call]) m' where
  get_eq := by
    intro c
    rw [hsteps.get_eq, h.get_eq, member_concat]
    cases call.value c <;> rfl
  led := by
    intro hadds
    obtain ⟨hcalls, hcall⟩ := forall_mem_append.mp hadds
    exact (h.led hcalls).concat (hcall call (mem_singleton_self call)) hsteps

theorem run_inv (calls : List Call) (h : ∀ call ∈ calls, ∀ c ∈ call.chars, c < 128) :
    ∃ m, run calls = some m ∧ Inv calls m := by
  induction calls using reverseRecOn with
  | nil =>
    refine ⟨zap, rfl, get_zap, fun _ hsome => ?_⟩
    rcases hsome with hne | ⟨c, -, hc⟩
    · exact absurd rfl hne
    · cases hc
  | append_singleton calls call ih =>
    obtain ⟨hcalls, hcall⟩ := forall_mem_append.mp h
    obtain ⟨m, hrun, hinv⟩ := ih hcalls
    obtain ⟨m', hstep, hsteps⟩ := step_spec m (hcall call (mem_singleton_self call))
    refine ⟨m', ?_, hinv.step hsteps⟩
    rw [run_concat, hrun, bind_some, hstep]

theorem lt_of_run {m : MaskArray} (h : run calls = some m) :
    ∀ call ∈ calls, ∀ c ∈ call.chars, c < 128 := by
  induction calls using reverseRecOn generalizing m with
  | nil => exact forall_mem_nil _
  | append_singleton calls call ih =>
    rw [run_concat] at h
    obtain ⟨m', hrun, hstep⟩ := bind_eq_some_iff.mp h
    refine forall_mem_append.mpr ⟨ih hrun, forall_mem_singleton.mpr ?_⟩
    by_contra hchars
    rw [step_of_not_lt m' hchars] at hstep
    cases hstep

/-- The calls stay inside the array and give the set, exactly if no character is 128 or more. -/
theorem holds_iff (calls : List Call) :
    (∃ m, run calls = some m ∧ Holds calls m) ↔ ∀ call ∈ calls, ∀ c ∈ call.chars, c < 128 := by
  constructor
  · rintro ⟨m, hrun, -⟩
    exact lt_of_run hrun
  · intro h
    obtain ⟨m, hrun, hinv⟩ := run_inv calls h
    refine ⟨m, hrun, hinv.get_eq, fun hadds hsome => ?_⟩
    rw [hinv.get_eq, hinv.led hadds (Or.inr hsome)]

/-- The character 0x80 is stored at 0xffffff80. -/
theorem not_holds : ¬ ∀ calls, ∃ m, run calls = some m ∧ Holds calls m := by
  intro h
  obtain ⟨m, hrun, -⟩ := h [.setChar 128 true]
  have hlt := lt_of_run hrun _ mem_cons_self 128 mem_cons_self
  exact absurd hlt (by decide)

end MaskArray

end WvStreams
