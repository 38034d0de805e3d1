import WvStreams.UniConf.TempGen

/-!
# Filtering generators

A generator is given by its calls, over its state (`IUniConfGen`). A `UniFilterGen` makes a
generator from its inner one. The filters that remap keys or refuse to store do so in `set`,
while `setv` is inherited: `setv_naive_eq` and `naive_agrees_iff` say which pairs it may be
given.
-/

namespace WvStreams

open Lib List

structure UniConfPair where
  key : ValidKey
  value : WvString
  deriving DecidableEq

/-- The calls of a generator. A null iterator is `none`. -/
structure IUniConfGen (σ : Type) where
  get : UniConfKey → σ → WvString
  exists_ : UniConfKey → σ → Bool
  haschildren : UniConfKey → σ → Bool
  iterator : UniConfKey → σ → Option (List (Segment × WvString))
  set : UniConfKey → WvString → σ → σ
  setv : List UniConfPair → σ → σ
  refresh : σ → σ × Bool := fun s => (s, true)
  commit : σ → σ := id

namespace IUniConfGen

variable {σ : Type}

def setv_naive (gen : IUniConfGen σ) (pairs : List UniConfPair) (s : σ) : σ :=
  pairs.foldl (fun s pair => gen.set pair.key pair.value s) s

/-- `setv` is the calls of `set` for the pairs in order. -/
def Iterates (gen : IUniConfGen σ) : Prop := ∀ pairs s, gen.setv pairs s = gen.setv_naive pairs s

/-- `UniConfGen::recursiveiterator`, down to some depth: the children of the key, each followed
by what is below it. -/
def recursiveiterator (gen : IUniConfGen σ) (depth : Nat) (top : UniConfKey) (s : σ) :
    List (UniConfKey × WvString) :=
  match depth with
  | 0 => []
  | depth + 1 =>
    ((gen.iterator top s).getD []).flatMap fun child =>
      let key := UniConfKey.concat top [child.1]
      (key, gen.get key s) :: gen.recursiveiterator depth key s

@[simp] theorem setv_naive_nil (gen : IUniConfGen σ) (s : σ) : gen.setv_naive [] s = s := rfl

@[simp] theorem setv_naive_cons (gen : IUniConfGen σ) (pair : UniConfPair)
    (pairs : List UniConfPair) (s : σ) :
    gen.setv_naive (pair :: pairs) s = gen.setv_naive pairs (gen.set pair.key pair.value s) := rfl

end IUniConfGen

/-- `UniTempGen` behind the interface. -/
def UniTempGen.gen : IUniConfGen UniTempGen where
  get key g := g.get key
  exists_ key g := g.exists_ key
  haschildren key g := !(g.iterator key).isEmpty
  iterator key g :=
    (g.root.bind fun root => UniConfTree.find root key).map fun node =>
      node.kids.toList.map fun c => (c.1, some c.2.val)
  set key value g := (g.set key value).1
  setv pairs g := g.setv (pairs.map fun pair => (pair.key.val, pair.value))

theorem UniTempGen.gen_iterates : UniTempGen.gen.Iterates := by
  intro pairs g
  show g.setv _ = _
  rw [UniTempGen.setv, foldl_map]
  rfl

/-- The filter with a `keymap` that may refuse a key. -/
def UniFilterGen {σ : Type} (keymap : UniConfKey → Option UniConfKey) (inner : IUniConfGen σ) :
    IUniConfGen σ where
  get key s := (keymap key).bind fun mapped_key => inner.get mapped_key s
  exists_ key s := (keymap key).elim false fun mapped_key => inner.exists_ mapped_key s
  haschildren key s := (keymap key).elim false fun mapped_key => inner.haschildren mapped_key s
  iterator key s := (keymap key).bind fun mapped_key => inner.iterator mapped_key s
  set key value s := (keymap key).elim s fun mapped_key => inner.set mapped_key value s
  setv pairs s := inner.setv pairs s
  refresh := inner.refresh
  commit := inner.commit

namespace UniFilterGen

def keymap (unmapped_key : UniConfKey) : Option UniConfKey := some unmapped_key

end UniFilterGen

namespace UniSubtreeGen

def keymap (subkey unmapped_key : UniConfKey) : Option UniConfKey :=
  if unmapped_key.isempty then some subkey else some (UniConfKey.concat subkey unmapped_key)

end UniSubtreeGen

def UniSubtreeGen {σ : Type} (subkey : UniConfKey) (inner : IUniConfGen σ) : IUniConfGen σ :=
  UniFilterGen (UniSubtreeGen.keymap subkey) inner

def UniReadOnlyGen {σ : Type} (inner : IUniConfGen σ) : IUniConfGen σ :=
  { UniFilterGen UniFilterGen.keymap inner with set := fun _ _ s => s }

/-- A call of `set` that a filter passes on with the key `mapped_key`. -/
abbrev Call := UniConfKey × WvString

def UniConfPair.call (pair : UniConfPair) : Call := (pair.key, pair.value)

namespace IUniConfGen

variable {σ ρ : Type}

def calls (gen : IUniConfGen σ) (cs : List Call) (s : σ) : σ :=
  cs.foldl (fun s c => gen.set c.1 c.2 s) s

theorem calls_eq_setv_naive (gen : IUniConfGen σ) (pairs : List UniConfPair) (s : σ) :
    gen.calls (pairs.map UniConfPair.call) s = gen.setv_naive pairs s := by
  rw [calls, foldl_map]
  rfl

theorem setv_naive_eq {inner : IUniConfGen σ} {gen : IUniConfGen ρ} (at_ : σ → ρ)
    {pass : UniConfPair → Option Call} (h : ∀ pair s, gen.set pair.key pair.value (at_ s) =
      at_ ((pass pair).elim s fun c => inner.set c.1 c.2 s)) (pairs : List UniConfPair) (s : σ) :
    gen.setv_naive pairs (at_ s) = at_ (inner.calls (pairs.filterMap pass) s) := by
  induction pairs generalizing s with
  | nil => rfl
  | cons pair pairs ih =>
    rw [setv_naive_cons, h, ih]
    cases hpass : pass pair with
    | none => rw [filterMap_cons_none hpass, Option.elim_none]
    | some c =>
      rw [filterMap_cons_some hpass, Option.elim_some]
      rfl

def recorder : IUniConfGen (List Call) where
  get _ _ := none
  exists_ _ _ := false
  haschildren _ _ := false
  iterator _ _ := none
  set key value s := s ++ [(key, value)]
  setv pairs s := s ++ pairs.map UniConfPair.call

theorem recorder_calls (cs s : List Call) : recorder.calls cs s = s ++ cs := by
  induction cs generalizing s with
  | nil => simp [calls]
  | cons c cs ih =>
    have hnext : recorder.calls (c :: cs) s = recorder.calls cs (s ++ [c]) := rfl
    rw [hnext, ih, append_assoc, singleton_append]

theorem recorder_iterates : recorder.Iterates := by
  intro pairs s
  rw [← calls_eq_setv_naive, recorder_calls]
  rfl

theorem naive_agrees_iff (pass : UniConfPair → Option Call) (pairs : List UniConfPair) :
    (∀ (σ : Type) (inner : IUniConfGen σ), inner.Iterates → ∀ s,
      inner.setv pairs s = inner.calls (pairs.filterMap pass) s) ↔
      ∀ pair ∈ pairs, pass pair = some pair.call := by
  constructor
  · intro h
    have hrec := h _ recorder recorder_iterates []
    rw [recorder_iterates, ← calls_eq_setv_naive, recorder_calls, recorder_calls, nil_append,
      nil_append] at hrec
    clear h
    induction pairs with
    | nil => simp
    | cons pair pairs ih =>
      cases hpass : pass pair with
      | none =>
        -- the others cannot make up for a pair that is lost
        rw [filterMap_cons_none hpass, map_cons] at hrec
        have hlen := congrArg length hrec
        have hle := length_filterMap_le pass pairs
        rw [length_cons, length_map] at hlen
        omega
      | some c =>
        rw [filterMap_cons_some hpass, map_cons] at hrec
        obtain ⟨hc, hrest⟩ := cons.inj hrec
        rw [forall_mem_cons, hpass, hc]
        exact ⟨rfl, ih hrest⟩
  · intro h σ inner hinner s
    have hcalls : pairs.filterMap pass = pairs.map UniConfPair.call := by
      rw [← filterMap_eq_map]
      exact filterMap_congr h
    rw [hinner, hcalls, calls_eq_setv_naive]

end IUniConfGen

end WvStreams
