import WvStreams.UniConf.Filter.PermGen

/-!
# `UniSecureGen`

The filter asks a `UniPermGen` before it passes a call on. A key may be written if
`drilldown` finds all its proper ancestors executable and the key itself is writable
(`findperm_iff`).
-/

namespace WvStreams

open Lib UniPermGen UniConfKey List UniConfKey

namespace UniSecureGen

section

variable {τ : Type} (perms : IUniConfGen τ) (cred : Credentials)

def drilldownLoop (t : τ) (check left : UniConfKey) : Bool :=
  match left with
  | [] => true
  | s :: rest =>
    -- the last segment is the 'file' and only the 'directories' are checked
    getperm perms t check cred .EXEC &&
      drilldownLoop t (check.append (first (s :: rest)))
        (removefirst (s :: rest))
termination_by left.length
decreasing_by
  have hle := length_collapse_le rest
  show (collapse rest).length < rest.length + 1
  omega

def drilldown (t : τ) (key : UniConfKey) : Bool := drilldownLoop perms cred t [] key

def findperm (t : τ) (key : UniConfKey) (type : Kind) : Bool :=
  if !drilldown perms cred t key then false else getperm perms t key cred type

end

end UniSecureGen

open UniSecureGen in
/-- The state is that of the generator of the permissions and that of the inner generator. -/
def UniSecureGen {τ σ : Type} (perms : IUniConfGen τ) (cred : Credentials)
    (inner : IUniConfGen σ) : IUniConfGen (τ × σ) :=
  let filter := UniFilterGen UniFilterGen.keymap inner
  let get := fun key (s : τ × σ) =>
    if findperm perms cred s.1 key .READ then filter.get key s.2 else none
  { get := get
    exists_ := fun key s =>
      if findperm perms cred s.1 key.removelast .EXEC then filter.exists_ key s.2 else false
    haschildren := fun key s =>
      if findperm perms cred s.1 key .EXEC then filter.haschildren key s.2 else false
    iterator := fun key s =>
      if findperm perms cred s.1 key .EXEC then
        (filter.iterator key s.2).map fun children =>
          children.map fun child => (child.1, get (prepend [child.1] key) s)
      else none
    set := fun key value s =>
      if findperm perms cred s.1 key .WRITE then (s.1, filter.set key value s.2) else s
    setv := fun pairs s => (s.1, filter.setv pairs s.2)
    refresh := fun s =>
      let (t, _) := (UniPermGen perms).refresh s.1
      let (s, ok) := filter.refresh s.2
      ((t, s), ok)
    commit := fun s => ((UniPermGen perms).commit s.1, filter.commit s.2) }

namespace UniSecureGen

variable {τ : Type} {perms : IUniConfGen τ} {cred : Credentials} {t : τ}

theorem drilldownLoop_iff {check left : UniConfKey} (hcheck : check.Plain) (hleft : left.Valid) :
    drilldownLoop perms cred t check left = true ↔
      ∀ q, q <+: left.filter (· ≠ []) → q ≠ left.filter (· ≠ []) →
        getperm perms t (check ++ q) cred .EXEC = true := by
  induction hlen : left.length using Nat.strong_induction_on generalizing check left with
  | _ n ih =>
    cases left with
    | nil =>
      rw [drilldownLoop]
      exact ⟨fun _ q hq hne => absurd (prefix_nil.mp hq) hne, fun _ => rfl⟩
    | cons s rest =>
      have hs := hleft.head_ne
      have hfilter : (s :: rest).filter (· ≠ []) = s :: rest.filter (· ≠ []) := by simp [hs]
      have hle := length_collapse_le rest
      have hlt : (collapse rest).length < n := by
        rw [← hlen, length_cons]
        omega
      have hcheck' : Plain (check ++ [s]) := hcheck.concat hs
      have hrest := ih _ hlt hcheck' hleft.collapse_tail rfl
      rw [drilldownLoop, append_first hcheck hs, Bool.and_eq_true, hfilter]
      have hremove : removefirst (s :: rest) = collapse rest := rfl
      rw [hremove, hrest, filter_collapse]
      constructor
      · rintro ⟨hself, hbelow⟩ q hq hne
        cases q with
        | nil => simpa using hself
        | cons r q =>
          obtain ⟨rfl, hahead⟩ := cons_prefix_cons.mp hq
          have hbelow' := hbelow q hahead fun e => hne (by rw [e])
          rwa [append_assoc, singleton_append] at hbelow'
      · intro h
        constructor
        · simpa using h [] nil_prefix nofun
        · intro q hq hne
          have hbelow := h (s :: q) (cons_prefix_cons.mpr ⟨rfl, hq⟩) fun e =>
            hne (cons.inj e).2
          rwa [append_assoc, singleton_append]

/-- Whoever has the credentials may change the value at a path: all proper ancestors are
executable, and the path is writable. -/
structure Permitted (perms : IUniConfGen τ) (cred : Credentials) (t : τ) (path : List Segment) :
    Prop where
  exec : ∀ q, q <+: path → q ≠ path → getperm perms t q cred .EXEC = true
  write : getperm perms t path cred .WRITE = true

variable {key : UniConfKey}

theorem getperm_fold (h : Caseless perms) (hkey : key.Plain) (type : Kind) :
    getperm perms t (key.map fold) cred type = getperm perms t key cred type :=
  h.getperm t hkey.map_fold.1 hkey hkey.map_fold.2 cred type

theorem drilldown_iff (h : Caseless perms) (hkey : key.Valid) :
    drilldown perms cred t key = true ↔
      ∀ q, q <+: key.path → q ≠ key.path → getperm perms t q cred .EXEC = true := by
  have hfilter : Plain (key.filter (· ≠ [])) := by
    intro hmem
    simp at hmem
  have hahead : ∀ {q : UniConfKey}, q <+: key.filter (· ≠ []) → q.Plain :=
    fun hq hmem => hfilter (hq.subset hmem)
  rw [drilldown, drilldownLoop_iff plain_nil hkey]
  simp only [nil_append]
  constructor
  · intro hall q hq hne
    obtain ⟨r, hr, rfl⟩ : ∃ r, r <+: key.filter (· ≠ []) ∧ q = r.map fold := by
      refine ⟨(key.filter (· ≠ [])).take q.length, take_prefix _ _, ?_⟩
      rw [map_take]
      exact prefix_iff_eq_take.mp hq
    rw [getperm_fold h (hahead hr)]
    apply hall r hr
    rintro rfl
    exact hne rfl
  · intro hall q hq hne
    rw [← getperm_fold h (hahead hq)]
    apply hall _ (hq.map fold)
    intro he
    apply hne
    have hlen := congrArg length he
    rw [path, length_map, length_map] at hlen
    exact hq.eq_of_length hlen

theorem findperm_iff (h : Caseless perms) (hkey : key.Valid) :
    findperm perms cred t key .WRITE = true ↔ Permitted perms cred t key.path := by
  have hself : getperm perms t key.path cred .WRITE = getperm perms t key cred .WRITE := by
    rcases hkey.cases with hkey | ⟨k, -, hk, rfl⟩
    · rw [hkey.path_eq, getperm_fold h hkey]
    · rw [path_slash, hk.path_eq, getperm_fold h hk, h.getperm_slash t hk]
  have hdrill : drilldown perms cred t key = true ↔ _ := drilldown_iff h hkey
  rw [findperm]
  cases hok : drilldown perms cred t key with
  | false =>
    refine ⟨fun hfalse => by simp at hfalse, fun hpermitted => ?_⟩
    rw [hdrill.mpr hpermitted.exec] at hok
    cases hok
  | true =>
    simp only [Bool.not_true, Bool.false_eq_true, if_false]
    rw [← hself]
    exact ⟨fun hwrite => ⟨hdrill.mp hok, hwrite⟩, fun hpermitted => hpermitted.write⟩

theorem permitted_iff {path : UniConfKey} (hpath : path.Plain) :
    Permitted perms cred t path ↔
      (∀ q ∈ path.inits, q ≠ path → allows perms t q cred .EXEC = true) ∧
        allows perms t path cred .WRITE = true := by
  have hinits : ∀ q, q <+: path → getperm perms t q cred .EXEC = allows perms t q cred .EXEC :=
    fun q hq => getperm_eq perms t (fun hmem => hpath (hq.subset hmem)) cred .EXEC
  constructor
  · intro h
    refine ⟨fun q hq hne => ?_, ?_⟩
    · have hahead : q <+: path := (mem_inits q path).mp hq
      rw [← hinits q hahead]
      exact h.exec q hahead hne
    · rw [← getperm_eq perms t hpath]
      exact h.write
  · rintro ⟨hexec, hwrite⟩
    refine ⟨fun q hq hne => ?_, ?_⟩
    · rw [hinits q hq]
      exact hexec q ((mem_inits q path).mpr hq) hne
    · rw [getperm_eq perms t hpath]
      exact hwrite

end UniSecureGen

end WvStreams
