import WvStreams.UniConf.Filter.SecureGen

/-!
# `setv` of the filters

`UniFilterGen::setv` hands the pairs to the inner generator as they are, and no filter
overrides it. `setv_iff_sets` says for which pairs that is what the calls of `set` do.
-/

namespace WvStreams

open UniTempGen UniSecureGen

open UniConfKey

open IUniConfGen

namespace UniSubtreeGen

/-- A pair is passed on at the key that it has below the subtree. -/
def pass (subkey : UniConfKey) (pair : UniConfPair) : Option Call :=
  (keymap subkey pair.key).map fun mapped_key => (mapped_key, pair.value)

theorem set_eq {σ : Type} (inner : IUniConfGen σ) (subkey : UniConfKey) (pair : UniConfPair)
    (s : σ) : (UniSubtreeGen subkey inner).set pair.key pair.value s =
      (pass subkey pair).elim s fun c => inner.set c.1 c.2 s := by
  show (keymap subkey pair.key).elim s _ = _
  rw [pass]
  cases keymap subkey pair.key <;> rfl

variable {key : UniConfKey}

theorem concat_nil (h : key.Valid) (hne : key ≠ []) : concat [] key = key := by
  have hempty : key.isempty = false := by simpa [isempty] using hne
  rcases h.cases with hplain | ⟨k, -, hk, rfl⟩
  · rw [concat, hplain.filter_eq, hempty, hplain.not_slash]
    simpa using hplain.collapse_eq
  · have hfilter : (k ++ [[]]).filter (· ≠ []) = k := by
      rw [List.filter_append, hk.filter_eq]
      simp
    rw [concat, hfilter, slash_hastrailingslash]
    simpa [collapse] using h.alone

theorem eq_nil_of_path (h : key.Valid) (hpath : key.path = []) : key = [] := by
  rcases h.cases with hplain | ⟨k, hne, hk, rfl⟩
  · rw [hplain.path_eq] at hpath
    exact List.map_eq_nil_iff.mp hpath
  · rw [path_slash, hk.path_eq] at hpath
    exact absurd (List.map_eq_nil_iff.mp hpath) hne

theorem keymap_eq_self_iff {subkey : UniConfKey} (hsubkey : subkey.Valid) (hkey : key.Valid) :
    keymap subkey key = some key ↔ subkey = [] := by
  rw [keymap]
  by_cases hnil : key = []
  · rw [hnil]
    simp [isempty]
  · have hempty : key.isempty = false := by simpa [isempty] using hnil
    rw [hempty, if_neg Bool.false_ne_true, Option.some_inj]
    constructor
    · intro h
      apply eq_nil_of_path hsubkey
      have hpath := congrArg path h
      rw [path_concatKey] at hpath
      exact List.append_left_eq_self.mp hpath
    · rintro rfl
      exact concat_nil hkey hnil

theorem pass_eq_iff (subkey : ValidKey) (pair : UniConfPair) :
    pass subkey pair = some pair.call ↔ subkey.val = [] := by
  rw [← keymap_eq_self_iff subkey.2 pair.key.2, pass, UniConfPair.call]
  cases keymap subkey pair.key <;> simp

end UniSubtreeGen

namespace UniSecureGen

open UniPermGen

variable {τ : Type} (perms : IUniConfGen τ) (cred : Credentials) (t : τ)

def pass (pair : UniConfPair) : Option Call :=
  if findperm perms cred t pair.key .WRITE then some pair.call else none

theorem set_eq {σ : Type} (inner : IUniConfGen σ) (pair : UniConfPair) (s : σ) :
    (UniSecureGen perms cred inner).set pair.key pair.value (t, s) =
      (t, (pass perms cred t pair).elim s fun c => inner.set c.1 c.2 s) := by
  show (if findperm perms cred t pair.key .WRITE then _ else _) = _
  rw [pass]
  split <;> rfl

end UniSecureGen

/-- On every inner generator whose own `setv` is the calls of `set`, `setv` of the filter is the
calls of its `set`: for a subtree if it is the whole tree or there are no pairs, for a
read-only generator if there are none, for a secure one if every pair may be written. -/
theorem setv_iff_sets (pairs : List UniConfPair) :
    (∀ subkey : ValidKey, (∀ (σ : Type) (inner : IUniConfGen σ), inner.Iterates → ∀ s,
        (UniSubtreeGen subkey inner).setv pairs s =
          (UniSubtreeGen subkey inner).setv_naive pairs s) ↔ subkey.val = [] ∨ pairs = []) ∧
    ((∀ (σ : Type) (inner : IUniConfGen σ), inner.Iterates → ∀ s,
        (UniReadOnlyGen inner).setv pairs s = (UniReadOnlyGen inner).setv_naive pairs s) ↔
          pairs = []) ∧
    ∀ (τ : Type) (perms : IUniConfGen τ) (cred : UniPermGen.Credentials) (t : τ),
      (∀ (σ : Type) (inner : IUniConfGen σ), inner.Iterates → ∀ s,
        (UniSecureGen perms cred inner).setv pairs (t, s) =
          (UniSecureGen perms cred inner).setv_naive pairs (t, s)) ↔
        ∀ pair ∈ pairs, findperm perms cred t pair.key .WRITE = true := by
  refine ⟨?_, ?_, ?_⟩
  · intro subkey
    have hcalls : ∀ (σ : Type) (inner : IUniConfGen σ) (s : σ),
        (UniSubtreeGen subkey inner).setv_naive pairs s =
          inner.calls (pairs.filterMap (UniSubtreeGen.pass subkey)) s :=
      fun σ inner => setv_naive_eq id (UniSubtreeGen.set_eq inner subkey) pairs
    have hpass := naive_agrees_iff (UniSubtreeGen.pass subkey) pairs
    simp only [UniSubtreeGen.pass_eq_iff] at hpass
    simp only [hcalls]
    refine Iff.trans hpass ?_
    cases pairs with
    | nil => simp
    | cons pair pairs =>
      constructor
      · intro h
        exact Or.inl (h pair List.mem_cons_self)
      · rintro (h | h)
        · exact fun _ _ => h
        · cases h
  · have hcalls : ∀ (σ : Type) (inner : IUniConfGen σ) (s : σ),
        (UniReadOnlyGen inner).setv_naive pairs s = inner.calls (pairs.filterMap fun _ => none) s :=
      fun σ inner => setv_naive_eq id (fun _ _ => rfl) pairs
    simp only [hcalls]
    refine Iff.trans (naive_agrees_iff (fun _ => none) pairs) ?_
    cases pairs with
    | nil => simp
    | cons pair pairs =>
      constructor
      · intro h
        cases h pair List.mem_cons_self
      · nofun
  · intro τ perms cred t
    have hcalls : ∀ (σ : Type) (inner : IUniConfGen σ) (s : σ),
        (UniSecureGen perms cred inner).setv_naive pairs (t, s) =
          (t, inner.calls (pairs.filterMap (pass perms cred t)) s) :=
      fun σ inner => setv_naive_eq (fun s => (t, s)) (set_eq perms cred t inner) pairs
    have hsetv : ∀ (σ : Type) (inner : IUniConfGen σ) (s : σ),
        (UniSecureGen perms cred inner).setv pairs (t, s) = (t, inner.setv pairs s) :=
      fun _ _ _ => rfl
    have hpass : ∀ pair, pass perms cred t pair = some pair.call ↔
        findperm perms cred t pair.key .WRITE = true := by
      intro pair
      rw [UniSecureGen.pass]
      split <;> simp_all
    simp only [hcalls, hsetv, Prod.mk.injEq, true_and, ← hpass]
    exact naive_agrees_iff _ pairs

/-- The pair of `b` and `1`, set below `a`: `setv` stores it at `b`, and `set` at `a/b`. A
read-only generator stores it in the bulk. -/
theorem setv_not_sets :
    let a : ValidKey := ⟨[[97]], by decide, by decide⟩
    let b : ValidKey := ⟨[[98]], by decide, by decide⟩
    let pairs : List UniConfPair := [⟨b, some [49]⟩]
    gen.Iterates ∧ ((UniSubtreeGen a gen).setv pairs .empty).get b = some [49] ∧
      ((UniSubtreeGen a gen).setv_naive pairs .empty).get b = none ∧
      ((UniSubtreeGen a gen).setv_naive pairs .empty).get [[97], [98]] = some [49] ∧
      ((UniReadOnlyGen gen).setv pairs .empty).get b = some [49] ∧
      ((UniReadOnlyGen gen).setv_naive pairs .empty).get b = none := by
  intro a b pairs
  exact ⟨gen_iterates, by decide, by decide, by decide, by decide, by decide⟩

end WvStreams
