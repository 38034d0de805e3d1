import WvStreams.Lib.Mounts
import WvStreams.UniConf.MountGen

/-!
# The mount table as it changes

A `UniMountGen` in which `UniTempGen`s are mounted and unmounted. An operation gives the next
table and what is announced. What is announced between `hold_delta` and `unhold_delta` is
dispatched when the outermost hold ends.
-/

namespace WvStreams

open Lib UniConfKey

/-- Mount points are read from strings. -/
abbrev MountPoint := { key : UniConfKey // key.Valid ∧ ∀ s ∈ key, slash ∉ s }

/-- A `UniGenMount` of a `UniTempGen`, which is known by `gen`. -/
structure UniTempMount where
  gen : Nat
  temp : UniTempGen
  key : MountPoint

abbrev UniTempMounts := List UniTempMount

/-- As in a table that does not change. -/
def UniTempMount.mount (m : UniTempMount) : UniGenMount :=
  ⟨UniTempGen, UniTempGen.gen, ⟨m.key, m.key.2.1⟩, m.key.2.2⟩

namespace UniTempMounts

open UniMountGen (trimkey)

def findmount (t : UniTempMounts) (key : UniConfKey) : Option UniTempMount :=
  t.find? fun m => m.key.val.suborsame key

def has_subkey : UniTempMounts → UniConfKey → Option UniTempMount → Bool
  | [], _, _ => false
  | m :: t, key, found =>
    key.suborsame m.key && key.compareto m.key == .lt ||
      -- the search ends at the mount that was found
      !(found.any fun f => m.gen == f.gen) && has_subkey t key found

def get (t : UniTempMounts) (key : UniConfKey) : WvString :=
  match findmount t key with
  | none => if has_subkey t key none then some [] else none
  | some found => found.temp.get (trimkey found.key key)

def exists_ (t : UniTempMounts) (key : UniConfKey) : Bool :=
  let found := findmount t key
  (found.any fun f => f.temp.exists_ (trimkey f.key key)) || has_subkey t key found

def haschildren (t : UniTempMounts) (key : UniConfKey) : Bool :=
  let found := findmount t key
  (found.any fun f => UniTempGen.gen.haschildren (trimkey f.key key) f.temp) ||
    has_subkey t key found

def iterator (t : UniTempMounts) (key : UniConfKey) : List Segment :=
  match findmount t key with
  | none => UniMountGen.mountnames (t.map UniTempMount.mount) key
  | some found => (found.temp.iterator (trimkey found.key key)).map Prod.fst

/-- The only mount above or below the key, if it is above; of those above the key, other than at
it, the first alone counts. -/
def findmountunder (t : UniTempMounts) (key : UniConfKey) : Option UniTempMount :=
  let (foundmount, num_found_mounts) := t.foldl (fun (found, num) m =>
    if m.key.val.suborsame key && found.isNone then (some m, num + 1)
    else if key.suborsame m.key then (found, num + 1)
    else (found, num)) (none, 0)
  if num_found_mounts = 1 then foundmount else none

/-- The keys of a `_UniConfGenRecursiveIter` from `current` on, relative to its top. -/
def recursivekeys (names : UniConfKey → List Segment) (top : UniConfKey) :
    Nat → UniConfKey → List UniConfKey
  | 0, _ => []
  | depth + 1, current =>
    (names (if current.isempty then top else concat top current)).flatMap fun subkey =>
      let newkey := concat current [subkey]
      newkey :: recursivekeys names top depth newkey

def recursiveiterator (t : UniTempMounts) (depth : Nat) (key : UniConfKey) : List UniConfKey :=
  match findmountunder t key with
  | some found =>
    recursivekeys (fun key => (found.temp.iterator key).map Prod.fst) (trimkey found.key key) depth
      []
  | none => recursivekeys (iterator t) key depth []

/-- What a mounted generator announces is announced below the mount point. -/
def gencallback (base : UniConfKey) (d : Delta) : Delta := ⟨concat base d.key, d.value⟩

def setgen : UniTempMounts → Nat → UniConfKey → WvString → UniTempMounts × List Delta
  | [], _, _, _ => ([], [])
  | m :: t, gen, key, value =>
    if m.gen = gen then
      ({ m with temp := (m.temp.set key value).1 } :: t,
        (m.temp.set key value).2.map (gencallback m.key))
    else
      (m :: (setgen t gen key value).1, (setgen t gen key value).2)

def set (t : UniTempMounts) (key : UniConfKey) (value : WvString) : UniTempMounts × List Delta :=
  match findmount t key with
  | none => (t, [])
  | some found => setgen t found.gen (trimkey found.key key) value

def makepoints : UniTempMounts → UniConfKey → UniConfKey → UniTempMounts × List Delta
  | t, _, [] => (t, [])
  | t, points, s :: key =>
    let points := points.append [s]
    let (t, ds) := if (get t points).isNone then set t points (some []) else (t, [])
    let (t, ds') := makepoints t points key
    (t, ds ++ ds')

def makemount (t : UniTempMounts) (key : UniConfKey) : UniTempMounts × List Delta :=
  let (t, ds) := makepoints t [] key
  -- `set` would set the root of what is mounted at the key
  let (t, ds') :=
    match findmount t key.removelast with
    | none => (t, [])
    | some found =>
      if (found.temp.get (trimkey found.key key)).isNone then
        setgen t found.gen (trimkey found.key key) (some [])
      else (t, [])
  (t, ds ++ ds')

/-- What is dispatched while the table is this. -/
structure Dispatch where
  deltas : List Delta
  table : UniTempMounts

/-- A `UniTempGen` has nothing to refresh. -/
def mountgen (t : UniTempMounts) (key : MountPoint) (gen : Nat) (temp : UniTempGen) :
    UniTempMounts × List Dispatch :=
  let (t, ds) := makemount t key
  let t := ⟨gen, temp, key⟩ :: t
  let held : Dispatch := ⟨⟨key, none⟩ :: ds ++ [⟨key, get t key⟩], t⟩
  if temp.exists_ [] then (t, [held])
  else
    let (t, ds) := setgen t gen [] (some [])
    (t, [held, ⟨ds, t⟩])

def newer (t : UniTempMounts) (gen : Nat) : UniTempMounts := t.takeWhile (·.gen ≠ gen)

def older (t : UniTempMounts) (gen : Nat) : UniTempMounts := (t.dropWhile (·.gen ≠ gen)).tail

/-- The loop of `unmount`, over the mount points before the place where the mount was. -/
def remounts : UniTempMounts → UniConfKey → List UniConfKey → UniTempMounts × List Delta
  | t, _, [] => (t, [])
  | t, key, k :: ks =>
    let (t, ds) :=
      if key.suborsame k && !key.same k then
        let (t, ds) := makemount t k
        (t, ds ++ [⟨k, get t k⟩])
      else (t, [])
    let (t, ds') := remounts t key ks
    (t, ds ++ ds')

/-- `none` if the generator is not mounted: the search goes over the end of the list. A
`UniTempGen` has nothing to commit. -/
def unmount (t : UniTempMounts) (gen : Nat) : Option (UniTempMounts × List Dispatch) :=
  (t.find? (·.gen = gen)).map fun i =>
    let xs := newer t gen
    let (t, ds) := remounts (xs ++ older t gen) i.key (xs.map (·.key.val))
    (t, [⟨⟨i.key, none⟩ :: ds, t⟩])

inductive Op where
  | mountgen (key : MountPoint) (gen : Nat) (temp : UniTempGen)
  | unmount (gen : Nat)
  | set (key : ValidKey) (value : WvString)

def step (t : UniTempMounts) : Op → Option (UniTempMounts × List Dispatch)
  | .mountgen key gen temp => some (mountgen t key gen temp)
  | .unmount gen => unmount t gen
  | .set key value => some ((set t key value).1, [⟨(set t key value).2, (set t key value).1⟩])

instance (key : UniConfKey) : Decidable key.Sliced :=
  inferInstanceAs (Decidable (∀ s ∈ key, s ≠ [] ∧ slash ∉ s))

def point (key : UniConfKey) (h : key.Sliced) : MountPoint :=
  ⟨key, h.plain.valid, fun s hs => (h s hs).2⟩

end UniTempMounts

end WvStreams
