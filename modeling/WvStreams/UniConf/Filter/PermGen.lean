import WvStreams.UniConf.Str2Int
import WvStreams.UniConf.Filter.FilterGen

/-!
# `UniPermGen`

The permissions of a key are entries below the same key of the inner generator. An entry that
is missing is inherited: `getperm_eq` says which entry of which ancestor decides.
-/

namespace WvStreams

open Lib UniConfKey UniConfKey

def UniPermGen {τ : Type} (inner : IUniConfGen τ) : IUniConfGen τ :=
  UniFilterGen UniFilterGen.keymap inner

namespace UniPermGen

inductive Level where
  | USER
  | GROUP
  | WORLD

def level2str : Level → Str
  | .USER => bytes "user"
  | .GROUP => bytes "group"
  | .WORLD => bytes "world"

inductive Kind where
  | READ
  | WRITE
  | EXEC

def type2str : Kind → Str
  | .READ => bytes "read"
  | .WRITE => bytes "write"
  | .EXEC => bytes "exec"

structure Credentials where
  user : WvString
  groups : List WvString

def entryKey (path : UniConfKey) (name : Str) : UniConfKey := concat path [name]

/-- A value that is looked for at the path, then at its parents in turn, until one is `found`;
what the root has is taken in any case. -/
def inherited {α : Type} (found : α → Bool) (look : UniConfKey → α) (path : UniConfKey) : α :=
  if !found (look path) && !path.isempty then inherited found look path.removelast else look path
termination_by path.length
decreasing_by
  rename_i h
  have hne : path ≠ [] := by
    rintro rfl
    simp [isempty] at h
  have hpos := List.length_pos_of_ne_nil hne
  have hle := length_collapse_le path.dropLast
  rw [List.length_dropLast] at hle
  show (collapse path.dropLast).length < path.length
  omega

section

variable {τ : Type} (inner : IUniConfGen τ) (t : τ)

def getowner (path : UniConfKey) : WvString :=
  inherited (fun owner => !owner.not) (fun path => inner.get (entryKey path (bytes "owner")) t) path

def getgroup (path : UniConfKey) : WvString :=
  inherited (fun group => !group.not) (fun path => inner.get (entryKey path (bytes "group")) t) path

/-- The entry of one path, -1 if there is none. -/
def permval (level : Level) (type : Kind) (path : UniConfKey) : Int :=
  str2int (inner.get (entryKey path (level2str level ++ bytes "-" ++ type2str type)) t) (-1)

def getoneperm (path : UniConfKey) (level : Level) (type : Kind) : Bool :=
  let val := inherited (fun val => val != -1) (permval inner t level type) path
  if val = -1 then
    -- nothing found: use default
    match type with
    | .READ => false
    | .WRITE => false
    | .EXEC => false
  else val ≠ 0

def getlevel (owner group : WvString) (cred : Credentials) : Level :=
  if !owner.not ∧ cred.user = owner then .USER
  else if !group.not ∧ group ∈ cred.groups then .GROUP
  else .WORLD

def getperm (path : UniConfKey) (cred : Credentials) (type : Kind) : Bool :=
  let owner := getowner inner t path
  let group := getgroup inner t path
  getoneperm inner t path (getlevel owner group cred) type

end

section

variable {α : Type} (found : α → Bool) (look : UniConfKey → α)

theorem inherited_nil : inherited found look [] = look [] := by
  rw [inherited]
  simp [isempty]

theorem inherited_concat {path : UniConfKey} (h : path.Plain) (s : Segment) :
    inherited found look (path ++ [s]) =
      if found (look (path ++ [s])) then look (path ++ [s]) else inherited found look path := by
  have hne : isempty (path ++ [s]) = false := by simp [isempty]
  rw [inherited, hne, h.removelast_concat]
  cases found (look (path ++ [s])) <;> rfl

/-- The first ancestor with an entry, beginning with the path itself. -/
def closest (entry : UniConfKey → Option α) (path : UniConfKey) : Option α :=
  path.inits.reverse.findSome? entry

theorem closest_nil (entry : UniConfKey → Option α) : closest entry [] = entry [] := by
  simp [closest]

theorem closest_concat (entry : UniConfKey → Option α) (path : UniConfKey) (s : Segment) :
    closest entry (path ++ [s]) = (entry (path ++ [s])).or (closest entry path) := by
  have hinits : (path ++ [s]).inits = path.inits ++ [path ++ [s]] := by simp [List.inits_append]
  rw [closest, hinits, List.reverse_append, List.reverse_singleton, List.singleton_append,
    List.findSome?_cons]
  cases entry (path ++ [s]) <;> rfl

theorem inherited_congr
    (hlook : ∀ k k' : UniConfKey, k.Plain → k'.Plain → k.path = k'.path → look k = look k')
    {k k' : UniConfKey} (hk : k.Plain) (hk' : k'.Plain) (h : k.path = k'.path) :
    inherited found look k = inherited found look k' := by
  induction k using List.reverseRecOn generalizing k' with
  | nil =>
    rw [hk'.path_eq] at h
    have hnil : k' = [] := List.map_eq_nil_iff.mp h.symm
    rw [hnil]
  | append_singleton k s ih =>
    rw [hk.path_eq, hk'.path_eq, List.map_append] at h
    rcases List.eq_nil_or_concat k' with rfl | ⟨k', s', rfl⟩
    · simp at h
    · simp only [List.concat_eq_append] at hk' h ⊢
      have hkey : look (k ++ [s]) = look (k' ++ [s']) :=
        hlook _ _ hk hk' (by rw [hk.path_eq, hk'.path_eq, List.map_append, h])
      obtain ⟨hplain, -⟩ := plain_append.mp hk
      obtain ⟨hplain', -⟩ := plain_append.mp hk'
      rw [List.map_append] at h
      have hrest : k.map fold = k'.map fold := (List.append_inj' h (by simp)).1
      rw [inherited_concat found look hplain, inherited_concat found look hplain', hkey,
        ih hplain hplain' (by rw [hplain.path_eq, hplain'.path_eq, hrest])]

theorem inherited_slash {k : UniConfKey} (hk : k.Plain) (h : look (k ++ [[]]) = look k) :
    inherited found look (k ++ [[]]) = inherited found look k := by
  rw [inherited_concat found look hk, h]
  split
  · rename_i hfound
    rw [inherited, hfound]
    rfl
  · rfl

end

theorem entryKey_eq {name : Str} (hname : name ≠ []) (path : UniConfKey) :
    entryKey path name = path.filter (· ≠ []) ++ [name] := by
  have hfilter : List.filter (fun x => decide (x ≠ ([] : Segment))) [name] = [name] := by
    simp [hname]
  have hslash : hastrailingslash [name] = false := by
    simpa [hastrailingslash] using hname
  have hne : path.filter (· ≠ []) ++ [name] ≠ [[]] := by
    intro e
    have hlast := congrArg List.getLast? e
    rw [List.getLast?_append_of_ne_nil _ (List.cons_ne_nil _ _)] at hlast
    exact hname (by simpa using hlast)
  rw [entryKey, concat, hfilter, hslash]
  simpa [isempty, collapse] using fun e => absurd e (by simpa using hne)

theorem path_entryKey {name : Str} (hname : name ≠ []) (path : UniConfKey) :
    (entryKey path name).map fold = path.path ++ [fold name] := by
  rw [entryKey_eq hname, List.map_append]
  rfl

section

variable {τ : Type} (inner : IUniConfGen τ) (t : τ)

/-- The entry of one path for the owner or the group, if it says anything. -/
def nameEntry (name : Str) (path : UniConfKey) : WvString :=
  let value := inner.get (entryKey path name) t
  if value.not then none else value

def permEntry (level : Level) (type : Kind) (path : UniConfKey) : Option Bool :=
  let val := permval inner t level type path
  if val = -1 then none else some (val ≠ 0)

/-- What the entries of the path and its ancestors allow: the owner, the group and the
permission are each those of the closest one that says anything; by default nothing is
allowed. -/
def allows (path : UniConfKey) (cred : Credentials) (type : Kind) : Bool :=
  let owner := closest (nameEntry inner t (bytes "owner")) path
  let group := closest (nameEntry inner t (bytes "group")) path
  (closest (permEntry inner t (getlevel owner group cred) type) path).getD false

theorem getlevel_filter (owner group : WvString) (cred : Credentials) :
    getlevel (if owner.not then none else owner) (if group.not then none else group) cred =
      getlevel owner group cred := by
  cases howner : owner.not <;> cases hgroup : group.not <;> simp [getlevel, howner, hgroup]

variable {k path : UniConfKey}

theorem inherited_name (name : Str) (h : path.Plain) :
    let value := inherited (fun value => !WvString.not value)
      (fun path => inner.get (entryKey path name) t) path
    (if value.not then none else value) = closest (nameEntry inner t name) path := by
  induction path using List.reverseRecOn with
  | nil => rw [inherited_nil, closest_nil, nameEntry]
  | append_singleton path s ih =>
    have hpath := (plain_append.mp h).1
    rw [inherited_concat _ _ hpath, closest_concat, ← ih hpath, nameEntry]
    cases hvalue : (inner.get (entryKey (path ++ [s]) name) t).not with
    | true => simp
    | false =>
      obtain ⟨v, hv⟩ : ∃ v, inner.get (entryKey (path ++ [s]) name) t = some v := by
        apply Option.isSome_iff_exists.mp
        by_contra hnone
        rw [Option.not_isSome_iff_eq_none.mp hnone] at hvalue
        cases hvalue
      simp [hv, hv ▸ hvalue]

theorem getoneperm_val (path : UniConfKey) (level : Level) (type : Kind) :
    getoneperm inner t path level type =
      let val := inherited (fun val => val != -1) (permval inner t level type) path
      if val = -1 then false else decide (val ≠ 0) := by
  cases type <;> rfl

theorem getoneperm_eq (h : path.Plain) (level : Level) (type : Kind) :
    getoneperm inner t path level type =
      (closest (permEntry inner t level type) path).getD false := by
  induction path using List.reverseRecOn with
  | nil =>
    rw [getoneperm_val, inherited_nil, closest_nil, permEntry]
    dsimp only
    split <;> rfl
  | append_singleton path s ih =>
    have hpath := (plain_append.mp h).1
    rw [getoneperm_val, inherited_concat _ _ hpath, closest_concat, permEntry]
    by_cases hval : permval inner t level type (path ++ [s]) = -1
    · simp only [hval, if_true, Option.none_or]
      rw [← ih hpath, getoneperm_val]
      rfl
    · simp [hval]

/-- `getperm` is what the entries mean. -/
theorem getperm_eq (h : path.Plain) (cred : Credentials) (type : Kind) :
    getperm inner t path cred type = allows inner t path cred type := by
  have howner : (if (getowner inner t path).not then none else getowner inner t path) =
      closest (nameEntry inner t (bytes "owner")) path := inherited_name inner t _ h
  have hgroup : (if (getgroup inner t path).not then none else getgroup inner t path) =
      closest (nameEntry inner t (bytes "group")) path := inherited_name inner t _ h
  rw [getperm, allows, ← howner, ← hgroup, getlevel_filter]
  exact getoneperm_eq inner t h _ type

/-- The inner generator compares keys as UniConf does, up to case. -/
def Caseless : Prop :=
  ∀ t, ∀ k k' : UniConfKey, k.map fold = k'.map fold → inner.get k t = inner.get k' t

variable {inner}

theorem Caseless.entry (h : Caseless inner) {name : Str} (hname : name ≠ []) {k' : UniConfKey}
    (hpath : k.path = k'.path) :
    inner.get (entryKey k name) t = inner.get (entryKey k' name) t := by
  apply h
  rw [path_entryKey hname, path_entryKey hname, hpath]

theorem Caseless.permval (h : Caseless inner) (level : Level) (type : Kind) {k' : UniConfKey}
    (hpath : k.path = k'.path) :
    permval inner t level type k = UniPermGen.permval inner t level type k' := by
  have hname : level2str level ++ bytes "-" ++ type2str type ≠ [] := by
    cases level <;> cases type <;> decide
  rw [UniPermGen.permval, h.entry t hname hpath, UniPermGen.permval]

theorem Caseless.getperm (h : Caseless inner) {k' : UniConfKey} (hk : k.Plain) (hk' : k'.Plain)
    (hpath : k.path = k'.path) (cred : Credentials) (type : Kind) :
    getperm inner t k cred type = UniPermGen.getperm inner t k' cred type := by
  have howner : getowner inner t k = getowner inner t k' :=
    inherited_congr _ _ (fun _ _ _ _ he => h.entry t (by decide) he) hk hk' hpath
  have hgroup : getgroup inner t k = getgroup inner t k' :=
    inherited_congr _ _ (fun _ _ _ _ he => h.entry t (by decide) he) hk hk' hpath
  have hval : ∀ level, inherited (fun val => val != -1) (UniPermGen.permval inner t level type) k =
      inherited (fun val => val != -1) (UniPermGen.permval inner t level type) k' :=
    fun level => inherited_congr _ _ (fun _ _ _ _ he => h.permval t level type he) hk hk' hpath
  simp only [UniPermGen.getperm, howner, hgroup, getoneperm, hval]

theorem Caseless.getperm_slash (h : Caseless inner) (hk : k.Plain) (cred : Credentials)
    (type : Kind) :
    UniPermGen.getperm inner t (k ++ [[]]) cred type = UniPermGen.getperm inner t k cred type := by
  have howner : getowner inner t (k ++ [[]]) = getowner inner t k :=
    inherited_slash _ _ hk (h.entry t (by decide) path_slash)
  have hgroup : getgroup inner t (k ++ [[]]) = getgroup inner t k :=
    inherited_slash _ _ hk (h.entry t (by decide) path_slash)
  have hval : ∀ level,
      inherited (fun val => val != -1) (UniPermGen.permval inner t level type) (k ++ [[]]) =
        inherited (fun val => val != -1) (UniPermGen.permval inner t level type) k :=
    fun level => inherited_slash _ _ hk (h.permval t level type path_slash)
  simp only [UniPermGen.getperm, howner, hgroup, getoneperm, hval]

end

end UniPermGen

end WvStreams
