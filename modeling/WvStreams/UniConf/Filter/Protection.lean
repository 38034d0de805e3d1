import WvStreams.UniConf.Filter.SecureGen
import WvStreams.UniConf.SubKey

/-!
# What `UniSecureGen` protects

`set` checks its key alone, but stores missing ancestors too and removes all that is below its
key; `setv` checks nothing. A run whose steps change no more than they check (`Guarded`)
changes only what may be written (`write_protected`).
-/

namespace WvStreams

open Lib UniPermGen UniTempGen

namespace UniSecureGen

inductive Op where
  | get (key : ValidKey)
  | exists_ (key : ValidKey)
  | haschildren (key : ValidKey)
  | iterator (key : ValidKey)
  | recursiveiterator (key : ValidKey)
  | set (key : ValidKey) (value : WvString)
  | setv (pairs : List UniConfPair)
  | refresh
  | commit

/-- What becomes of the state of a generator; to read it changes nothing. -/
def perform {ρ : Type} (gen : IUniConfGen ρ) (s : ρ) : Op → ρ
  | .get _ => s
  | .exists_ _ => s
  | .haschildren _ => s
  | .iterator _ => s
  | .recursiveiterator _ => s
  | .set key value => gen.set key value s
  | .setv pairs => gen.setv pairs s
  | .refresh => (gen.refresh s).1
  | .commit => gen.commit s

/-- What holds of every step of a run. -/
def EveryStep {ρ : Type} (gen : IUniConfGen ρ) (P : ρ → Op → Prop) : ρ → List Op → Prop
  | _, [] => True
  | s, op :: ops => P s op ∧ EveryStep gen P (perform gen s op) ops

theorem EveryStep.imp {ρ : Type} {gen : IUniConfGen ρ} {P Q : ρ → Op → Prop}
    (h : ∀ s op, P s op → Q s op) {s : ρ} {ops : List Op} (hops : EveryStep gen P s ops) :
    EveryStep gen Q s ops := by
  induction ops generalizing s with
  | nil => trivial
  | cons op ops ih => exact ⟨h s op hops.1, ih hops.2⟩

theorem EveryStep.and {ρ : Type} {gen : IUniConfGen ρ} {P Q : ρ → Op → Prop} {s : ρ}
    {ops : List Op} (hP : EveryStep gen P s ops) (hQ : EveryStep gen Q s ops) :
    EveryStep gen (fun s op => P s op ∧ Q s op) s ops := by
  induction ops generalizing s with
  | nil => trivial
  | cons op ops ih => exact ⟨⟨hP.1, hQ.1⟩, ih hP.2 hQ.2⟩

theorem EveryStep.unchanged {ρ α : Type} {gen : IUniConfGen ρ} {f : ρ → α} {s : ρ} {ops : List Op}
    (h : EveryStep gen (fun s op => f (perform gen s op) = f s) s ops) :
    f (ops.foldl (perform gen) s) = f s := by
  induction ops generalizing s with
  | nil => rfl
  | cons op ops ih => exact (ih h.2).trans h.1

/-- The inner generator holds values at paths. A `set` changes the value at its key and that of
missing ancestors, or removes what is at or below its key; nobody else changes them. -/
structure Frames {σ : Type} (inner : IUniConfGen σ) (content : σ → PathMap Segment Str) : Prop where
  iterates : inner.Iterates
  set_some : ∀ s key v p, content (inner.set key (some v) s) p ≠ content s p →
    p = key.path ∨ p <+: key.path ∧ content s p = none
  set_none : ∀ s key p, content (inner.set key none s) p ≠ content s p →
    key.path <+: p ∧ content s p ≠ none
  refresh : ∀ s, content (inner.refresh s).1 = content s
  commit : ∀ s, content (inner.commit s) = content s

theorem frames_temp : Frames gen content where
  iterates := gen_iterates
  set_some g key v p h := by
    have hset : (gen.set key (some v) g).content = refSet g.content key (some v) :=
      content_set g key (some v)
    rw [hset, refSet] at h
    split at h
    · exact absurd rfl h
    · by_contra hother
      rw [not_or, not_and] at hother
      obtain ⟨hne, hanc⟩ := hother
      apply h
      by_cases hp : p <+: key.path
      · rw [PathMap.assign_some_ancestor [] _ v hp hne]
        obtain ⟨w, hw⟩ := Option.ne_none_iff_exists'.mp (hanc hp)
        rw [hw, Option.getD_some]
      · exact PathMap.assign_some_other [] _ v hp
  set_none g key p h := by
    have hset : (gen.set key none g).content = g.content.prune key.path := by
      have hset := content_set g key none
      rw [refSet, Option.isSome_none, Bool.and_false] at hset
      exact hset
    rw [hset, PathMap.prune] at h
    split at h
    · rename_i hp
      exact ⟨hp, Ne.symm h⟩
    · exact absurd rfl h
  refresh _ := rfl
  commit _ := rfl

theorem caseless_temp : Caseless gen := by
  intro g k k' h
  show g.get k = g.get k'
  rw [get_eq, get_eq, refGet, refGet, UniConfKey.hastrailingslash_congr h, UniConfKey.path_congr h]

section

variable {τ σ : Type} (perms : IUniConfGen τ) (cred : Credentials) (inner : IUniConfGen σ)
  (content : σ → PathMap Segment Str)

/-- What a `set` changes besides the value at its key may be changed as well: the missing
ancestors that it creates, or all that it removes below the key. -/
def Covered (t : τ) (s : σ) : Call → Prop
  | (key, some _) => ∀ p, p <+: key.path → p ≠ key.path → content s p = none →
      Permitted perms cred t p
  | (key, none) => ∀ p, key.path <+: p → p ≠ key.path → content s p ≠ none →
      Permitted perms cred t p

/-- The steps that change no more than they are to check. -/
def Guarded (s : τ × σ) : Op → Prop
  | .set key value =>
    Permitted perms cred s.1 key.val.path → Covered perms cred content s.1 s.2 (key, value)
  | .setv pairs => ∀ before pair after, pairs = before ++ pair :: after →
      Permitted perms cred s.1 pair.key.val.path ∧
        Covered perms cred content s.1 (inner.setv_naive before s.2) pair.call
  | _ => True

/-- The step changes no value without permission. -/
def Protected (s : τ × σ) (op : Op) : Prop :=
  ∀ p, content (perform (UniSecureGen perms cred inner) s op).2 p ≠ content s.2 p →
    Permitted perms cred s.1 p

variable {perms cred inner content}

theorem permitted_of_changed (h : Frames inner content) {t : τ} {s : σ} {key : UniConfKey}
    {value : WvString} (hkey : Permitted perms cred t key.path)
    (hcovered : Covered perms cred content t s (key, value)) {p : List Segment}
    (hp : content (inner.set key value s) p ≠ content s p) : Permitted perms cred t p := by
  by_cases he : p = key.path
  · rw [he]
    exact hkey
  · cases value with
    | none =>
      obtain ⟨hbelow, hsome⟩ := h.set_none s key p hp
      exact hcovered p hbelow he hsome
    | some v =>
      rcases h.set_some s key v p hp with hself | ⟨habove, hnone⟩
      · exact absurd hself he
      · exact hcovered p habove he hnone

theorem permitted_of_bulk (h : Frames inner content) {t : τ} {s : σ} {pairs : List UniConfPair}
    (hpairs : ∀ before pair after, pairs = before ++ pair :: after →
      Permitted perms cred t pair.key.val.path ∧
        Covered perms cred content t (inner.setv_naive before s) pair.call)
    {p : List Segment} (hp : content (inner.setv_naive pairs s) p ≠ content s p) :
    Permitted perms cred t p := by
  induction pairs generalizing s with
  | nil => exact absurd rfl hp
  | cons pair pairs ih =>
    obtain ⟨hkey, hcovered⟩ := hpairs [] pair pairs rfl
    by_cases hfirst : content (inner.set pair.key pair.value s) p = content s p
    · apply ih (s := inner.set pair.key pair.value s)
      · intro before pair' after he
        exact hpairs (pair :: before) pair' after (by rw [he, List.cons_append])
      · rw [hfirst]
        exact hp
    · exact permitted_of_changed h hkey hcovered hfirst

theorem protected_of_guarded (hperms : Caseless perms) (h : Frames inner content) {s : τ × σ}
    {op : Op} (hop : Guarded perms cred inner content s op) :
    Protected perms cred inner content s op := by
  intro p hp
  cases op with
  | set key value =>
    have hset : perform (UniSecureGen perms cred inner) s (.set key value) =
        if findperm perms cred s.1 key .WRITE then (s.1, inner.set key value s.2) else s := rfl
    rw [hset] at hp
    split at hp
    · rename_i hperm
      have hkey := (findperm_iff hperms key.2).mp hperm
      exact permitted_of_changed h hkey (hop hkey) hp
    · exact absurd rfl hp
  | setv pairs =>
    have hsetv : (perform (UniSecureGen perms cred inner) s (.setv pairs)).2 =
        inner.setv_naive pairs s.2 := h.iterates pairs s.2
    rw [hsetv] at hp
    exact permitted_of_bulk h hop hp
  | refresh => exact absurd (congrFun (h.refresh s.2) p) hp
  | commit => exact absurd (congrFun (h.commit s.2) p) hp
  | get key | exists_ key | haschildren key | iterator key | recursiveiterator key =>
    exact absurd rfl hp

/-- In a run whose steps are guarded every change of a value is permitted in the state before
it, and a value that may not be written at any of the steps is the same at the end. -/
theorem write_protected (hperms : Caseless perms) (h : Frames inner content) {s : τ × σ}
    {ops : List Op}
    (hops : EveryStep (UniSecureGen perms cred inner) (Guarded perms cred inner content) s ops) :
    EveryStep (UniSecureGen perms cred inner) (Protected perms cred inner content) s ops ∧
      ∀ p, EveryStep (UniSecureGen perms cred inner) (fun s _ => ¬ Permitted perms cred s.1 p) s ops →
        content (ops.foldl (perform (UniSecureGen perms cred inner)) s).2 p = content s.2 p := by
  have hsteps := hops.imp fun _ _ hop => protected_of_guarded hperms h hop
  refine ⟨hsteps, fun p hp => ?_⟩
  have hsame : EveryStep (UniSecureGen perms cred inner)
      (fun s op => content (perform (UniSecureGen perms cred inner) s op).2 p = content s.2 p) s
      ops := by
    apply (hsteps.and hp).imp
    rintro s op ⟨hprotected, hdenied⟩
    by_contra hchanged
    exact hdenied (hprotected p hchanged)
  exact EveryStep.unchanged (f := fun s : τ × σ => content s.2 p) hsame

end

def everybody : UniTempGen :=
  UniTempGen.empty.setv [([bytes "world-exec"], some [49]), ([bytes "world-write"], some [49])]

/-- Everybody may write: `b` comes in the bulk, and then `a` is set. -/
theorem write_protected_everybody :
    let a : ValidKey := ⟨[[97]], by decide, by decide⟩
    let b : ValidKey := ⟨[[98]], by decide, by decide⟩
    let ops : List Op := [.setv [⟨b, some [50]⟩], .set a (some [49])]
    EveryStep (UniSecureGen gen ⟨none, []⟩ gen)
      (Protected gen ⟨none, []⟩ gen content)
      (everybody, empty) ops := by
  intro a b ops
  have hroot : Permitted gen ⟨none, []⟩ everybody [] :=
    (permitted_iff UniConfKey.plain_nil).mpr (by decide +kernel)
  have hb : Permitted gen ⟨none, []⟩ everybody [[98]] :=
    (permitted_iff (by decide)).mpr (by decide +kernel)
  have habove : ∀ (p : List Segment) (s : Segment), p <+: [s] → p ≠ [s] →
      Permitted gen ⟨none, []⟩ everybody p := by
    intro p s hp hne
    rcases List.prefix_concat_iff.mp (show p <+: [] ++ [s] from hp) with h | h
    · exact absurd h hne
    · rw [List.prefix_nil.mp h]
      exact hroot
  have hguarded : EveryStep (UniSecureGen gen ⟨none, []⟩ gen)
      (Guarded gen ⟨none, []⟩ gen content)
      (everybody, empty) ops := by
    refine ⟨?_, ?_, trivial⟩
    · intro before pair after he
      cases before with
      | nil =>
        obtain ⟨rfl, rfl⟩ := List.cons.inj he
        exact ⟨hb, fun p hp hne _ => habove p [98] hp hne⟩
      | cons => simp at he
    · exact fun _ p hp hne _ => habove p [97] hp hne
  exact (write_protected caseless_temp frames_temp hguarded).1

/-- With no permissions at all a client stores `1` at `a` in the bulk. -/
theorem write_protected_fails :
    let a : ValidKey := ⟨[[97]], by decide, by decide⟩
    let op : Op := .setv [⟨a, some [49]⟩]
    ¬ Protected gen ⟨none, []⟩ gen content
      (empty, empty) op := by
  intro a op h
  have hchanged := h [[97]] (by decide +kernel)
  rw [permitted_iff (by decide)] at hchanged
  revert hchanged
  decide +kernel

end UniSecureGen

end WvStreams
