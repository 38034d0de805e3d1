import WvStreams.Containers.ScatterHash

/-!
# `WvArgs`

The options of a program are in a list, in a dictionary of their keys, and in an array for the
parser of the C library. An option that has no short name gets a negative key. Everything that
changes an option's key or name must change the other structures with it, and this is where it goes
wrong: `coherent_runs` is about the runs in which it does not.
-/

namespace WvStreams

open Lib WvScatterHash List WvScatterHash

/-- `addr` tells one object from another. An option without an argument has no `arg_desc`. -/
structure WvArgsOption where
  addr : Nat
  short_option : Int
  long_option : Option Str
  desc : Option Str
  arg_desc : Option Str
  deriving DecidableEq

/-- `WvHash` of an `int`. -/
instance : Accessor WvArgsOption Int where
  get_key option := option.short_option
  hash key := UInt32.ofInt key

/-- The fields that are not always 0. -/
structure argp_option where
  name : Option Str := none
  key : Int := 0
  arg : Option Str := none
  doc : Option Str := none
  deriving DecidableEq

def argp_option.zeros : argp_option := {}

/-- The lists hold pointers: what is written to an option is seen in both. An array is as long as it
was allocated, and what has not been written to is none. -/
structure WvArgsData where
  options_list : List WvArgsOption := []
  options_dict : WvScatterHash WvArgsOption := fresh 2 0
  argp_ : Option (List (Option argp_option)) := none
  argp_index : Nat := 0
  argp_size : Nat := 0
  last_no_key : Int := -1
  new_addr : Nat := 0

namespace WvArgsData

def write (option : WvArgsOption) (o : WvArgsOption) : WvArgsOption :=
  if o.addr = option.addr then option else o

def store (option : WvArgsOption) (s : WvArgsData) : WvArgsData :=
  { s with
    options_list := s.options_list.map (write option)
    options_dict := s.options_dict.map (write option) }

def matches_short (short_option : Int) (i : WvArgsOption) : Bool :=
  short_option ≠ 0 ∧ i.short_option = short_option

def matches_long (long_option : Option Str) (i : WvArgsOption) : Bool :=
  long_option ≠ none ∧ i.long_option = long_option

section Dictionary

variable (fuel depth : Nat)

def add (option : WvArgsOption) (s : WvArgsData) : Option WvArgsData :=
  let (option, last_no_key) :=
    if option.short_option = 0 then
      ({ option with short_option := s.last_no_key }, s.last_no_key - 1)
    else (option, s.last_no_key)
  (WvScatterHash.add fuel depth s.options_dict option false).map fun options_dict =>
    { s with options_list := s.options_list ++ [option], options_dict, last_no_key }

def remove_at (short_option : Int) (long_option : Option Str) (s : WvArgsData) (i : WvArgsOption) :
    Option WvArgsData :=
  if (matches_short short_option i && matches_long long_option i) ||
      (matches_short short_option i && i.long_option = none) ||
      (matches_long long_option i && i.short_option = 0) then
    (WvScatterHash.remove fuel s.options_dict i).map fun options_dict =>
      { s with options_dict, options_list := s.options_list.filter (·.addr ≠ i.addr), argp_ := none }
  else if matches_short short_option i then
    let i := { i with short_option := 0 }
    let s := s.store i
    (WvScatterHash.remove fuel s.options_dict i).bind fun options_dict =>
      (WvScatterHash.add fuel depth options_dict i false).map fun options_dict =>
        { s with options_dict }
  else if matches_long long_option i then some (s.store { i with long_option := none })
  else some s

def remove (short_option : Int) (long_option : Option Str) (s : WvArgsData) : Option WvArgsData :=
  s.options_list.foldlM (remove_at fuel depth short_option long_option) s

def add_option (short_option : Int) (long_option desc arg_desc : Option Str) (s : WvArgsData) :
    Option WvArgsData :=
  (s.remove fuel depth short_option long_option).bind fun s =>
    { s with new_addr := s.new_addr + 1 }.add fuel depth
      ⟨s.new_addr, short_option, long_option, desc, arg_desc⟩

end Dictionary

def zap (s : WvArgsData) : WvArgsData :=
  { s with options_dict := s.options_dict.zap, options_list := [], argp_ := none }

def argp_init (size : Nat) : List (Option argp_option) × Nat :=
  let argp_size := if size < 1 then 1 else size
  (some .zeros :: List.replicate (argp_size - 1) none, argp_size)

/-- One cell of the array is written to; none if it has no such cell. -/
def poke (cells : List (Option argp_option)) (i : Nat) (option : argp_option) :
    Option (List (Option argp_option)) :=
  if i < cells.length then some (cells.set i (some option)) else none

def argp_double (s : WvArgsData) : WvArgsData :=
  { s with
    argp_ := s.argp_.map (· ++ List.replicate s.argp_size none), argp_size := 2 * s.argp_size }

def argp_add (option : argp_option) (s : WvArgsData) : Option WvArgsData :=
  let s := if s.argp_index ≥ s.argp_size - 1 then s.argp_double else s
  s.argp_.bind fun argp_ =>
    (poke argp_ s.argp_index option).bind fun argp_ =>
      (poke argp_ (s.argp_index + 1) .zeros).map fun argp_ =>
        { s with argp_ := some argp_, argp_index := s.argp_index + 1 }

def add_to_argp (i : WvArgsOption) : argp_option where
  name := i.long_option
  key := i.short_option
  arg := i.arg_desc
  doc := i.desc

def argp_build (s : WvArgsData) : Option WvArgsData :=
  let s := if s.argp_.isSome then s else
    let (argp_, argp_size) := argp_init (s.options_list.length + 2)
    { s with argp_ := some argp_, argp_size }
  s.options_list.foldlM (fun s i => s.argp_add (add_to_argp i)) s

/-- `process`, up to the call of the parser, which gets the array. -/
def process (s : WvArgsData) : Option (WvArgsData × List (Option argp_option)) :=
  (if s.argp_.isSome then some s else s.argp_build).bind fun s =>
    s.argp_.map fun argp_ => (s, argp_)

/-! ## The names of the options -/

/-- The short name of an option, or 0, and its long name. -/
def names (i : WvArgsOption) : Int × Option Str :=
  (if i.short_option < 0 then 0 else i.short_option, i.long_option)

def lose (short_option : Int) (long_option : Option Str) (n : Int × Option Str) : Int × Option Str :=
  (if short_option ≠ 0 ∧ n.1 = short_option then 0 else n.1,
    if long_option ≠ none ∧ n.2 = long_option then none else n.2)

/-- Names are removed from a table of options, and an option that has none left goes with them. -/
def forget (short_option : Int) (long_option : Option Str) (table : List (Int × Option Str)) :
    List (Int × Option Str) :=
  (table.map (lose short_option long_option)).filter (· ≠ (0, none))

theorem forget_append (short_option : Int) (long_option : Option Str)
    (front back : List (Int × Option Str)) : forget short_option long_option (front ++ back) =
      forget short_option long_option front ++ forget short_option long_option back := by
  rw [forget, map_append, filter_append]
  rfl

variable {short_option : Int}

theorem forget_of_eq {long_option : Option Str} {n : Int × Option Str}
    (h : lose short_option long_option n = (0, none)) :
    forget short_option long_option [n] = [] := by
  rw [forget, map_singleton, h]
  rfl

theorem forget_of_ne {long_option : Option Str} {n : Int × Option Str}
    (h : lose short_option long_option n ≠ (0, none)) :
    forget short_option long_option [n] = [lose short_option long_option n] := by
  rw [forget, map_singleton, filter_cons_of_pos (by simpa using h), filter_nil]

theorem length_forget_le (short_option : Int) (long_option : Option Str)
    (table : List (Int × Option Str)) :
    (forget short_option long_option table).length ≤ table.length :=
  (length_filter_le _ _).trans (length_map _).le

theorem lose_short (h : short_option ≠ 0) (long_option : Option Str) (n : Int × Option Str) :
    (lose short_option long_option n).1 ≠ short_option := by
  rw [lose]
  split
  · exact Ne.symm h
  · rename_i hnot
    exact fun heq => hnot ⟨h, heq⟩

/-! ## Sound tables -/

/-- The array begins with an entry for each option, and a terminator. -/
def Built (options_list : List WvArgsOption) (cells : List (Option argp_option)) : Prop :=
  cells.take (options_list.length + 1) =
    options_list.map (fun i => some (add_to_argp i)) ++ [some .zeros]

structure Sound (s : WvArgsData) : Prop where
  valid : s.options_dict.Valid
  elems : s.options_dict.elems = s.options_list.map fun i => (i, false)
  keys : (s.options_list.map (·.short_option)).Nodup
  addrs : (s.options_list.map (·.addr)).Nodup
  nonzero : ∀ i ∈ s.options_list, i.short_option ≠ 0
  named : ∀ i ∈ s.options_list, names i ≠ (0, none)
  old : ∀ i ∈ s.options_list, i.addr < s.new_addr
  negative : s.last_no_key < 0
  made_up : ∀ i ∈ s.options_list, s.last_no_key < i.short_option
  array : ∀ cells ∈ s.argp_, Built s.options_list cells

/-- No option keeps only its long name, or loses the only name it has under a key that was made up,
or is renamed while there is an array. -/
def Safe (short_option : Int) (long_option : Option Str) (s : WvArgsData) (i : WvArgsOption) : Prop :=
  (matches_short short_option i → matches_long long_option i ∨ i.long_option = none) ∧
    (matches_long long_option i → ¬ matches_short short_option i →
      0 < i.short_option ∧ s.argp_ = none)

section Steps

variable {s : WvArgsData} {kept rest : List WvArgsOption} {i : WvArgsOption}

theorem Sound.unlink (hs : Sound s) (hlist : s.options_list = kept ++ i :: rest) {fuel : Nat}
    (hfuel : 2 * 65521 ≤ fuel) : ∃ options_dict,
      WvScatterHash.remove fuel s.options_dict i = some options_dict ∧ Sound { s with
        options_dict, options_list := s.options_list.filter (·.addr ≠ i.addr), argp_ := none } ∧
      s.options_list.filter (·.addr ≠ i.addr) = kept ++ rest := by
  have hfuel' := fuel_of_valid hfuel hs.valid
  have hkeys := hs.keys
  have haddrs := hs.addrs
  have helems := hs.elems
  rw [hlist] at hkeys haddrs helems
  rw [map_append, map_cons, nodup_middle, nodup_cons] at hkeys haddrs
  have hsub : ∀ j ∈ kept ++ rest, j ∈ s.options_list := by
    intro j hj
    rw [hlist]
    exact (Sublist.append (Sublist.refl kept) (sublist_cons_self i rest)).subset hj
  have hfilter : s.options_list.filter (·.addr ≠ i.addr) = kept ++ rest := by
    have hother : ∀ j ∈ kept ++ rest, decide (j.addr ≠ i.addr) = true := by
      intro j hj
      refine decide_eq_true fun heq => haddrs.1 ?_
      rw [← map_append, ← heq]
      exact mem_map_of_mem hj
    rw [hlist, filter_append, filter_cons_of_neg (by simp), ← filter_append,
      filter_eq_self.mpr hother]
  obtain ⟨options_dict, hremove, hvalid, hcase⟩ := remove_spec hs.valid hfuel' i
  have hsplit : s.options_dict.elems =
      (i, false) ::ₘ (((kept ++ rest).map fun i => (i, false) : List (WvArgsOption × Bool)) :
        Multiset (WvArgsOption × Bool)) := by
    rw [helems, map_append, map_cons, map_append, Multiset.cons_coe]
    exact Multiset.coe_eq_coe.mpr perm_middle
  have hrest : options_dict.elems = (kept ++ rest).map fun i => (i, false) := by
    rcases hcase with ⟨elem, hkey, hcons⟩ | ⟨rfl, hnone⟩
    · have hmem : elem ∈ s.options_dict.elems := by
        rw [hcons]
        exact Multiset.mem_cons_self elem _
      rw [hsplit] at hmem
      rcases Multiset.mem_cons.mp hmem with rfl | hmem
      · rw [hsplit] at hcons
        exact ((Multiset.cons_inj_right _).mp hcons).symm
      · -- no other option has the key
        obtain ⟨j, hj, rfl⟩ := mem_map.mp (Multiset.mem_coe.mp hmem)
        refine absurd ?_ hkeys.1
        rw [← map_append]
        exact mem_map.mpr ⟨j, hj, hkey⟩
    · refine absurd rfl (hnone (i, false) ?_)
      rw [hsplit]
      exact Multiset.mem_cons_self _ _
  refine ⟨options_dict, hremove, ⟨hvalid, ?_, ?_, ?_, ?_, ?_, ?_, hs.negative, ?_, ?_⟩, hfilter⟩
  · rw [hfilter]
    exact hrest
  · rw [hfilter, map_append]
    exact hkeys.2
  · rw [hfilter, map_append]
    exact haddrs.2
  · rw [hfilter]
    exact fun j hj => hs.nonzero j (hsub j hj)
  · rw [hfilter]
    exact fun j hj => hs.named j (hsub j hj)
  · rw [hfilter]
    exact fun j hj => hs.old j (hsub j hj)
  · rw [hfilter]
    exact fun j hj => hs.made_up j (hsub j hj)
  · exact fun cells hcells => absurd hcells (Option.not_mem_none cells)

theorem Sound.rename (hs : Sound s) (hlist : s.options_list = kept ++ i :: rest)
    (hpos : 0 < i.short_option) (hargp : s.argp_ = none) :
    Sound (s.store { i with long_option := none }) ∧
      (s.store { i with long_option := none }).options_list =
        kept ++ { i with long_option := none } :: rest := by
  have haddrs := hs.addrs
  rw [hlist, map_append, map_cons, nodup_middle, nodup_cons] at haddrs
  have hi : i ∈ s.options_list := by
    rw [hlist]
    exact mem_append_right kept mem_cons_self
  have hsame : ∀ j ∈ s.options_list, j.addr = i.addr → j = i :=
    fun j hj heq => inj_on_of_nodup_map hs.addrs hj hi heq
  -- the key and the address of what is written to stay as they are
  have hwrite : ∀ j ∈ s.options_list,
      (write { i with long_option := none } j).short_option = j.short_option ∧
        (write { i with long_option := none } j).addr = j.addr := by
    intro j hj
    rw [write]
    split
    · rename_i heq
      rw [hsame j hj heq]
      exact ⟨rfl, rfl⟩
    · exact ⟨rfl, rfl⟩
  have hmap : ∀ {β : Type} (f : WvArgsOption → β), (∀ j ∈ s.options_list,
      f (write { i with long_option := none } j) = f j) →
      (s.options_list.map (write { i with long_option := none })).map f = s.options_list.map f := by
    intro β f hf
    rw [map_map]
    exact map_congr_left hf
  have hother : ∀ j ∈ s.options_list, j ≠ i → write { i with long_option := none } j = j := by
    intro j hj hne
    rw [write, if_neg fun heq => hne (hsame j hj heq)]
  have hself : write { i with long_option := none } i = { i with long_option := none } := by
    rw [write, if_pos rfl]
  have hne : ∀ j ∈ kept ++ rest, j ≠ i := by
    rintro j hj rfl
    refine haddrs.1 ?_
    rw [← map_append]
    exact mem_map_of_mem hj
  have hshape : s.options_list.map (write { i with long_option := none }) =
      kept ++ { i with long_option := none } :: rest := by
    have hfixed : ∀ l : List WvArgsOption, (∀ j ∈ l, j ∈ kept ++ rest) →
        l.map (write { i with long_option := none }) = l := by
      intro l hl
      refine (map_congr_left fun j hj => hother j ?_ (hne j (hl j hj))).trans (map_id l)
      rw [hlist]
      exact (Sublist.append (Sublist.refl kept) (sublist_cons_self i rest)).subset
        (hl j hj)
    rw [hlist, map_append, map_cons, hself, hfixed kept fun j hj => mem_append_left rest hj,
      hfixed rest fun j hj => mem_append_right kept hj]
  have hall : ∀ (P : WvArgsOption → Prop), (∀ j ∈ s.options_list, P j) →
      P { i with long_option := none } →
      ∀ j ∈ s.options_list.map (write { i with long_option := none }), P j := by
    intro P hold hnew j hj
    obtain ⟨k, hk, rfl⟩ := mem_map.mp hj
    by_cases hki : k = i
    · rw [hki, hself]
      exact hnew
    · rw [hother k hk hki]
      exact hold k hk
  have hkey : ∀ elem ∈ s.options_dict.elems,
      get_key (write { i with long_option := none } elem.1) = get_key elem.1 := by
    intro elem helem
    rw [hs.elems] at helem
    obtain ⟨j, hj, rfl⟩ := mem_map.mp (Multiset.mem_coe.mp helem)
    exact (hwrite j hj).1
  obtain ⟨hvalid, helems⟩ := map_spec hs.valid hkey
  refine ⟨⟨hvalid, ?_, ?_, ?_, ?_, ?_, ?_, hs.negative, ?_, ?_⟩, hshape⟩
  · rw [store, helems, hs.elems, Multiset.map_coe, map_map, map_map]
    rfl
  · rw [store, hmap _ fun j hj => (hwrite j hj).1]
    exact hs.keys
  · rw [store, hmap _ fun j hj => (hwrite j hj).2]
    exact hs.addrs
  · exact hall _ hs.nonzero (hs.nonzero i hi)
  · refine hall _ hs.named fun heq => ?_
    have hzero := congrArg Prod.fst heq
    dsimp only [names] at hzero
    rw [if_neg (by omega)] at hzero
    exact absurd hzero hpos.ne'
  · exact hall _ hs.old (hs.old i hi)
  · exact hall _ hs.made_up (hs.made_up i hi)
  · intro cells hcells
    rw [store, hargp] at hcells
    exact absurd hcells (Option.not_mem_none cells)

variable {short_option : Int} {long_option : Option Str}

theorem matches_short_iff :
    matches_short short_option i = true ↔ short_option ≠ 0 ∧ i.short_option = short_option :=
  decide_eq_true_iff

theorem matches_long_iff :
    matches_long long_option i = true ↔ long_option ≠ none ∧ i.long_option = long_option :=
  decide_eq_true_iff

theorem remove_at_spec (hs : Sound s) (hlist : s.options_list = kept ++ i :: rest)
    (hchar : 0 ≤ short_option ∨ long_option = none) (hsafe : Safe short_option long_option s i)
    {fuel : Nat} (hfuel : 2 * 65521 ≤ fuel) (depth : Nat) :
    ∃ s' kept', remove_at fuel depth short_option long_option s i = some s' ∧ Sound s' ∧
      s'.options_list = kept' ++ rest ∧
      kept'.map names = kept.map names ++ forget short_option long_option [names i] ∧
      (s.argp_ = none → s'.argp_ = none) ∧ s'.new_addr = s.new_addr := by
  have hi : i ∈ s.options_list := by
    rw [hlist]
    exact mem_append_right kept mem_cons_self
  have hnonzero := hs.nonzero i hi
  have hnamed := hs.named i hi
  by_cases hshort : matches_short short_option i = true
  · -- its short name is its only name that is left
    obtain ⟨options_dict, hremove, hs', hfilter⟩ := hs.unlink hlist hfuel
    obtain ⟨hne, hkey⟩ := matches_short_iff.mp hshort
    have hcase := hsafe.1 hshort
    refine ⟨_, kept, ?_, hs', hfilter, ?_, fun _ => rfl, rfl⟩
    · rw [remove_at, if_pos, hremove, Option.map_some]
      rcases hcase with hlong | hnone
      · simp [hshort, hlong]
      · simp [hshort, hnone]
    · have hnone : lose short_option long_option (names i) = (0, none) := by
        have hpos : 0 < i.short_option := by
          by_contra hneg
          have hlong : i.long_option ≠ none := by
            intro hnone
            refine hnamed ?_
            rw [names, if_pos (by omega), hnone]
          obtain ⟨hgiven, -⟩ := matches_long_iff.mp (hcase.resolve_right hlong)
          have hlt : 0 ≤ short_option := hchar.resolve_right hgiven
          omega
        rw [names, if_neg (by omega), lose, if_pos ⟨hne, hkey⟩]
        rcases hcase with hlong | hnone
        · rw [if_pos (matches_long_iff.mp hlong)]
        · rw [hnone, ite_self]
      rw [forget_of_eq hnone, append_nil]
  · by_cases hlong : matches_long long_option i = true
    · obtain ⟨hpos, hargp⟩ := hsafe.2 hlong hshort
      obtain ⟨hs', hlist'⟩ := hs.rename hlist hpos hargp
      obtain ⟨hne, hname⟩ := matches_long_iff.mp hlong
      refine ⟨_, kept ++ [{ i with long_option := none }], ?_, hs', ?_, ?_, fun _ => hargp, rfl⟩
      · rw [remove_at, if_neg (by simp [hshort, hnonzero]), if_neg hshort, if_pos hlong]
      · rw [hlist', append_assoc]
        rfl
      · have hkey : lose short_option long_option (names i) = (i.short_option, none) := by
          rw [names, if_neg (by omega), lose]
          exact Prod.ext (if_neg fun h => hshort (matches_short_iff.mpr h)) (if_pos ⟨hne, hname⟩)
        have hne' : lose short_option long_option (names i) ≠ (0, none) := by
          rw [hkey]
          exact fun h => hnonzero (congrArg Prod.fst h)
        rw [forget_of_ne hne', hkey, map_append, map_singleton, names]
        dsimp only
        rw [if_neg (by omega)]
    · refine ⟨s, kept ++ [i], ?_, hs, ?_, ?_, id, rfl⟩
      · rw [remove_at, if_neg (by simp [hshort, hlong]), if_neg hshort, if_neg hlong]
      · rw [hlist, append_assoc]
        rfl
      · have hsame : lose short_option long_option (names i) = names i := by
          rw [names, lose]
          refine Prod.ext (if_neg ?_) (if_neg fun h => hlong (matches_long_iff.mpr h))
          rintro ⟨hne, heq⟩
          split at heq
          · exact hne heq.symm
          · exact hshort (matches_short_iff.mpr ⟨hne, heq⟩)
        rw [forget_of_ne (by rw [hsame]; exact hnamed), hsame, map_append, map_singleton]

theorem remove_spec (hs : Sound s) (hchar : 0 ≤ short_option ∨ long_option = none)
    (hsafe : ∀ i ∈ s.options_list, Safe short_option long_option s i) {fuel : Nat}
    (hfuel : 2 * 65521 ≤ fuel) (depth : Nat) :
    ∃ s', remove fuel depth short_option long_option s = some s' ∧ Sound s' ∧
      s'.options_list.map names = forget short_option long_option (s.options_list.map names) ∧
      (s.argp_ = none → s'.argp_ = none) ∧ s'.new_addr = s.new_addr := by
  have hfold : ∀ (rest kept : List WvArgsOption) (s : WvArgsData), Sound s →
      s.options_list = kept ++ rest → (∀ i ∈ rest, Safe short_option long_option s i) →
      ∃ s', rest.foldlM (remove_at fuel depth short_option long_option) s = some s' ∧ Sound s' ∧
        s'.options_list.map names =
          kept.map names ++ forget short_option long_option (rest.map names) ∧
        (s.argp_ = none → s'.argp_ = none) ∧ s'.new_addr = s.new_addr := by
    intro rest
    induction rest with
    | nil =>
      intro kept s hs hlist _
      refine ⟨s, rfl, hs, ?_, id, rfl⟩
      rw [hlist, append_nil]
      exact (append_nil _).symm
    | cons i rest ih =>
      intro kept s hs hlist hsafe
      obtain ⟨s₁, kept₁, hat, hs₁, hlist₁, hnames₁, hargp₁, haddr₁⟩ :=
        remove_at_spec hs hlist hchar (hsafe i mem_cons_self) hfuel depth
      have hsafe₁ : ∀ j ∈ rest, Safe short_option long_option s₁ j := by
        intro j hj
        obtain ⟨hone, htwo⟩ := hsafe j (mem_cons_of_mem i hj)
        exact ⟨hone, fun hlong hshort => ⟨(htwo hlong hshort).1, hargp₁ (htwo hlong hshort).2⟩⟩
      obtain ⟨s', hrest, hs', hnames, hargp, haddr⟩ := ih kept₁ s₁ hs₁ hlist₁ hsafe₁
      refine ⟨s', ?_, hs', ?_, fun h => hargp (hargp₁ h), haddr.trans haddr₁⟩
      · rw [foldlM_cons, hat]
        exact hrest
      · rw [hnames, hnames₁, append_assoc, ← forget_append]
        rfl
  obtain ⟨s', hremove, hs', hnames, hargp, haddr⟩ := hfold s.options_list [] s hs rfl hsafe
  exact ⟨s', hremove, hs', hnames, hargp, haddr⟩

theorem add_spec (hs : Sound s) (option : WvArgsOption) (hchar : 0 ≤ option.short_option)
    (hlegal : option.short_option ≠ 0 ∨ option.long_option ≠ none)
    (hkey : option.short_option = 0 ∨ ∀ i ∈ s.options_list, i.short_option ≠ option.short_option)
    (haddr : ∀ i ∈ s.options_list, i.addr < option.addr) (hnew : option.addr < s.new_addr)
    (hargp : s.argp_ = none) (hroom : s.options_list.length < 26208)
    {fuel : Nat} (hfuel : 2 * 65521 ≤ fuel) (depth : Nat) :
    ∃ s', add fuel (depth + 2) option s = some s' ∧ Sound s' ∧ s'.options_list.map names =
        s.options_list.map names ++ [(option.short_option, option.long_option)] := by
  have hnegative := hs.negative
  have hfits : ¬ s.options_dict.Outgrown := by
    refine not_outgrown hs.valid ?_
    rw [hs.valid.num, hs.elems, Multiset.coe_card, length_map]
    exact hroom
  -- the option as it is filed
  have hfiled : ∀ (filed : WvArgsOption) (last_no_key : Int), filed.addr = option.addr →
      filed.short_option ≠ 0 → names filed = (option.short_option, option.long_option) →
      (∀ i ∈ s.options_list, i.short_option ≠ filed.short_option) → last_no_key ≤ s.last_no_key →
      last_no_key < filed.short_option → ∃ options_dict,
        WvScatterHash.add fuel (depth + 2) s.options_dict filed false = some options_dict ∧
        Sound { s with options_list := s.options_list ++ [filed], options_dict, last_no_key } := by
    intro filed last_no_key hfaddr hnonzero hnames hfresh hle hlt
    obtain ⟨options_dict, hadd, hvalid, helems⟩ :=
      WvScatterHash.add_spec hfuel depth hs.valid hfits filed false
    have hall : ∀ (P : WvArgsOption → Prop), (∀ i ∈ s.options_list, P i) → P filed →
        ∀ i ∈ s.options_list ++ [filed], P i := by
      intro P hold hnew i hi
      rcases mem_append.mp hi with hi | hi
      · exact hold i hi
      · exact mem_singleton.mp hi ▸ hnew
    refine ⟨options_dict, hadd, hvalid, ?_, ?_, ?_, hall _ hs.nonzero hnonzero,
      hall _ hs.named ?_, hall _ hs.old (hfaddr ▸ hnew), lt_of_le_of_lt hle hnegative, ?_, ?_⟩
    · rw [helems, hs.elems, Multiset.cons_coe, map_append, map_singleton]
      exact Multiset.coe_eq_coe.mpr (perm_append_singleton _ _).symm
    · rw [map_append, map_singleton]
      refine Nodup.append hs.keys (nodup_singleton _) ?_
      rintro key hkey' hmem
      obtain ⟨i, hi, heq⟩ := mem_map.mp hkey'
      exact hfresh i hi (heq.trans (mem_singleton.mp hmem))
    · rw [map_append, map_singleton]
      refine Nodup.append hs.addrs (nodup_singleton _) ?_
      rintro addr haddr' hmem
      obtain ⟨i, hi, heq⟩ := mem_map.mp haddr'
      have hlt' := haddr i hi
      rw [mem_singleton.mp hmem] at heq
      omega
    · rw [hnames]
      intro h
      rcases hlegal with hshort | hlong
      · exact hshort (congrArg Prod.fst h)
      · exact hlong (congrArg Prod.snd h)
    · exact hall _ (fun i hi => lt_of_le_of_lt hle (hs.made_up i hi)) hlt
    · rw [hargp]
      exact fun cells hcells => absurd hcells (Option.not_mem_none cells)
  by_cases hzero : option.short_option = 0
  · obtain ⟨options_dict, hadd, hs'⟩ := hfiled { option with short_option := s.last_no_key }
      (s.last_no_key - 1) rfl hnegative.ne (by dsimp only [names]; rw [if_pos hnegative, hzero])
      (fun i hi => (hs.made_up i hi).ne') (by omega) (by dsimp only; omega)
    refine ⟨_, ?_, hs', ?_⟩
    · rw [add, if_pos hzero]
      dsimp only
      rw [hadd, Option.map_some]
    · rw [map_append, map_singleton, names]
      rw [if_pos hnegative, hzero]
  · obtain ⟨options_dict, hadd, hs'⟩ := hfiled option s.last_no_key rfl hzero
      (by rw [names, if_neg (by omega)]) (hkey.resolve_left hzero) le_rfl (by omega)
    refine ⟨_, ?_, hs', ?_⟩
    · rw [add, if_neg hzero]
      dsimp only
      rw [hadd, Option.map_some]
    · rw [map_append, map_singleton, names, if_neg (by omega)]

theorem poke_append {front back : List (Option argp_option)} {i : Nat} (hi : i = front.length)
    (old : Option argp_option) (option : argp_option) :
    poke (front ++ old :: back) i option = some (front ++ some option :: back) := by
  subst hi
  rw [poke, if_pos (by rw [length_append, length_cons]; omega),
    set_append_right _ _ le_rfl, Nat.sub_self, set_cons_zero]

theorem argp_add_spec {front back : List (Option argp_option)} {old old' : Option argp_option}
    (hargp : s.argp_ = some (front ++ old :: old' :: back)) (hindex : s.argp_index = front.length)
    (hsize : s.argp_size = (front ++ old :: old' :: back).length) (option : argp_option) :
    s.argp_add option = some { s with
      argp_ := some (front ++ [some option] ++ some .zeros :: back)
      argp_index := s.argp_index + 1 } := by
  have hcons : front ++ some option :: old' :: back = front ++ [some option] ++ old' :: back := by
    rw [append_assoc]
    rfl
  rw [length_append, length_cons, length_cons] at hsize
  rw [argp_add, if_neg (by omega), hargp, Option.bind_some, poke_append hindex, Option.bind_some,
    hcons, poke_append (by rw [length_append, length_singleton, hindex]), Option.map_some]

theorem argp_build_loop (options : List WvArgsOption) (front back : List (Option argp_option))
    (s : WvArgsData) (hargp : s.argp_ = some (front ++ some .zeros :: back))
    (hindex : options = [] ∨ s.argp_index = front.length)
    (hsize : s.argp_size = (front ++ some .zeros :: back).length)
    (hroom : options.length ≤ back.length) :
    ∃ argp_index back', options.foldlM (fun s i => s.argp_add (add_to_argp i)) s = some { s with
      argp_ := some (front ++ options.map (fun i => some (add_to_argp i)) ++ some .zeros :: back')
      argp_index } := by
  induction options generalizing front back s with
  | nil =>
    refine ⟨s.argp_index, back, ?_⟩
    rw [map_nil, append_nil, ← hargp]
    rfl
  | cons i options ih =>
    obtain ⟨old', back, rfl⟩ : ∃ old' rest, back = old' :: rest :=
      exists_cons_of_length_pos (by rw [length_cons] at hroom; omega)
    have hadd := argp_add_spec hargp (hindex.resolve_left (cons_ne_nil _ _)) hsize (add_to_argp i)
    have hindex₁ : s.argp_index + 1 = (front ++ [some (add_to_argp i)]).length := by
      rw [length_append, length_singleton, hindex.resolve_left (cons_ne_nil _ _)]
    have hsize₁ : s.argp_size =
        (front ++ [some (add_to_argp i)] ++ some argp_option.zeros :: back).length := by
      rw [hsize, append_assoc, length_append, length_append]
      rfl
    have hroom₁ : options.length ≤ back.length := by
      rw [length_cons, length_cons] at hroom
      omega
    obtain ⟨argp_index, back', hrest⟩ := ih (front ++ [some (add_to_argp i)]) back { s with
      argp_ := some (front ++ [some (add_to_argp i)] ++ some .zeros :: back)
      argp_index := s.argp_index + 1 } rfl (Or.inr hindex₁) hsize₁ hroom₁
    have hentries : front ++ [some (add_to_argp i)] ++ options.map (fun i => some (add_to_argp i)) =
        front ++ (i :: options).map fun i => some (add_to_argp i) := by
      rw [append_assoc]
      rfl
    refine ⟨argp_index, back', ?_⟩
    rw [hentries] at hrest
    rw [foldlM_cons, hadd]
    exact hrest

theorem process_spec (hs : Sound s) (hargp : s.argp_ = none → s.argp_index = 0 ∨ s.options_list = []) :
    ∃ s' cells, s.process = some (s', cells) ∧ Sound s' ∧ s'.options_list = s.options_list ∧
      Built s.options_list cells := by
  cases hcells : s.argp_ with
  | some cells =>
    refine ⟨s, cells, ?_, hs, rfl, hs.array cells hcells⟩
    rw [process, hcells, if_pos Option.isSome_some, Option.bind_some, hcells, Option.map_some]
  | none =>
    have hback : s.options_list.length ≤
        (replicate (s.options_list.length + 1) (none : Option argp_option)).length := by
      rw [length_replicate]
      omega
    obtain ⟨argp_index, back', hbuild⟩ := argp_build_loop s.options_list []
      (replicate (s.options_list.length + 1) none)
      { s with
        argp_ := some (some .zeros :: replicate (s.options_list.length + 1) none)
        argp_size := s.options_list.length + 2 } rfl (hargp hcells).symm
      (by rw [nil_append, length_cons, length_replicate]) hback
    have hbuilt : Built s.options_list
        (s.options_list.map (fun i => some (add_to_argp i)) ++ some .zeros :: back') := by
      rw [Built, ← singleton_append, ← append_assoc]
      exact take_left' (by rw [length_append, length_map, length_singleton])
    have hinit : argp_init (s.options_list.length + 2) =
        (some .zeros :: replicate (s.options_list.length + 1) none, s.options_list.length + 2) := by
      rw [argp_init, if_neg (by omega)]
      rfl
    have hnone : s.argp_.isSome = false := by
      rw [hcells]
      rfl
    rw [nil_append] at hbuild
    refine ⟨{ s with
      argp_ := some (s.options_list.map (fun i => some (add_to_argp i)) ++ some .zeros :: back')
      argp_index, argp_size := s.options_list.length + 2 }, _, ?_, ?_, rfl, hbuilt⟩
    · simp only [process, argp_build, hnone, Bool.false_eq_true, if_false, hinit]
      rw [hbuild, Option.bind_some, Option.map_some]
    · refine ⟨hs.valid, hs.elems, hs.keys, hs.addrs, hs.nonzero, hs.named, hs.old, hs.negative,
        hs.made_up, ?_⟩
      rintro cells ⟨⟩
      exact hbuilt

end Steps

/-! ## Runs -/

/-- What can be seen of the tables when they agree: the dictionary holds the options of the list and
nothing else, and finds each under the key that it has now; every option has a name. -/
structure Coherent (fuel : Nat) (s : WvArgsData) : Prop where
  elems : s.options_dict.elems = s.options_list.map fun i => (i, false)
  filed : ∀ key, genfind_or_null fuel s.options_dict key =
    some (s.options_list.find? (·.short_option = key))
  keys : (s.options_list.map (·.short_option)).Nodup
  nonzero : ∀ i ∈ s.options_list, i.short_option ≠ 0
  named : ∀ i ∈ s.options_list, names i ≠ (0, none)

theorem Sound.coherent {s : WvArgsData} (hs : Sound s) {fuel : Nat} (hfuel : 2 * 65521 ≤ fuel) :
    Coherent fuel s := by
  refine ⟨hs.elems, fun key => ?_, hs.keys, hs.nonzero, hs.named⟩
  obtain ⟨found, hfind, hsome, hnone⟩ := genfind_or_null_spec hs.valid
    (fuel_of_valid hfuel hs.valid) key
  rw [hfind]
  congr 1
  cases found with
  | none =>
    symm
    rw [find?_eq_none]
    intro i hi hkey
    refine hnone rfl (i, false) ?_ (of_decide_eq_true hkey)
    rw [hs.elems]
    exact Multiset.mem_coe.mpr (mem_map_of_mem hi)
  | some i =>
    obtain ⟨hkey, auto_free, hmem⟩ := hsome i rfl
    rw [hs.elems] at hmem
    obtain ⟨j, hj, heq⟩ := mem_map.mp (Multiset.mem_coe.mp hmem)
    obtain rfl : j = i := congrArg Prod.fst heq
    cases hlist : s.options_list.find? (·.short_option = key) with
    | none => exact absurd (decide_eq_true hkey) (find?_eq_none.mp hlist j hj)
    | some k =>
      have hkey' := find?_some hlist
      rw [decide_eq_true_iff] at hkey'
      exact congrArg some (inj_on_of_nodup_map hs.keys hj (mem_of_find?_eq_some hlist)
        (hkey.trans hkey'.symm))

/-- The calls of a client. A null pointer is no long name. -/
inductive Op where
  | add_option (short_option : Int) (long_option desc arg_desc : Option Str)
  | remove_short (short_option : Int)
  | remove_long (long_option : Option Str)
  | remove_all_options
  | process

def machine (fuel depth : Nat) : Machine WvArgsData Op (Option (List (Option argp_option))) where
  step s
    | .add_option short_option long_option desc arg_desc =>
      (s.add_option fuel depth short_option long_option desc arg_desc).map (·, none)
    | .remove_short short_option => (s.remove fuel depth short_option none).map (·, none)
    | .remove_long long_option => (s.remove fuel depth 0 long_option).map (·, none)
    | .remove_all_options => some (s.zap, none)
    | .process => s.process.map fun (s, argp_) => (s, some argp_)

def reference (table : List (Int × Option Str)) : Op → List (Int × Option Str)
  | .add_option short_option long_option _ _ =>
    forget short_option long_option table ++ [(short_option, long_option)]
  | .remove_short short_option => forget short_option none table
  | .remove_long long_option => forget 0 long_option table
  | .remove_all_options => []
  | .process => table

def Legal : Op → Prop
  | .add_option short_option long_option _ _ => short_option ≠ 0 ∨ long_option ≠ none
  | .remove_short _ | .remove_long _ | .remove_all_options | .process => True

/-- `Safe` removals, short names that are characters, no option that is added while there is an
array, and no array built after one has been freed that had entries. -/
def Careful (s : WvArgsData) : Op → Prop
  | .add_option short_option long_option _ _ =>
    0 ≤ short_option ∧ (∀ i ∈ s.options_list, Safe short_option long_option s i) ∧
      s.argp_ = none ∧ s.options_list.length < 26208
  | .remove_short short_option => ∀ i ∈ s.options_list, Safe short_option none s i
  | .remove_long long_option => ∀ i ∈ s.options_list, Safe 0 long_option s i
  | .remove_all_options => True
  | .process => s.argp_ = none → s.argp_index = 0 ∨ s.options_list = []

theorem sound_new : Sound {} := by
  refine ⟨valid_fresh rfl, elems_fresh 2 0, nodup_nil, nodup_nil, ?_, ?_, ?_, by decide, ?_, ?_⟩
  · exact nofun
  · exact nofun
  · exact nofun
  · exact nofun
  · exact fun cells hcells => absurd hcells (Option.not_mem_none cells)

theorem step_spec {s : WvArgsData} (hs : Sound s) {op : Op} (hlegal : Legal op)
    (hcareful : Careful s op) {fuel : Nat} (hfuel : 2 * 65521 ≤ fuel) (depth : Nat) :
    ∃ s' out, (machine fuel (depth + 2)).step s op = some (s', out) ∧ Sound s' ∧
      s'.options_list.map names = reference (s.options_list.map names) op ∧
      (op = .process → ∃ argp_, out = some argp_ ∧ Built s'.options_list argp_) := by
  cases op with
  | add_option short_option long_option desc arg_desc =>
    obtain ⟨hchar, hsafe, hargp, hroom⟩ := hcareful
    obtain ⟨s₁, hremove, hs₁, hnames₁, hargp₁, haddr₁⟩ :=
      remove_spec hs (Or.inl hchar) hsafe hfuel (depth + 2)
    have hfresh : short_option = 0 ∨ ∀ i ∈ s₁.options_list, i.short_option ≠ short_option := by
      refine or_iff_not_imp_left.mpr fun hne i hi heq => ?_
      have hmem := hnames₁ ▸ mem_map_of_mem hi
      obtain ⟨n, -, hn⟩ := mem_map.mp (mem_filter.mp hmem).1
      refine lose_short hne long_option n ?_
      rw [hn, names, if_neg (by omega), heq]
    have hroom₁ : s₁.options_list.length < 26208 := by
      have hle := length_forget_le short_option long_option (s.options_list.map names)
      rw [← hnames₁, length_map, length_map] at hle
      omega
    have hs₁' : Sound { s₁ with new_addr := s₁.new_addr + 1 } :=
      ⟨hs₁.valid, hs₁.elems, hs₁.keys, hs₁.addrs, hs₁.nonzero, hs₁.named,
        fun i hi => Nat.lt_succ_of_lt (hs₁.old i hi), hs₁.negative, hs₁.made_up, hs₁.array⟩
    obtain ⟨s', hadd, hs', hnames⟩ := add_spec hs₁'
      ⟨s₁.new_addr, short_option, long_option, desc, arg_desc⟩ hchar hlegal hfresh
      hs₁.old (Nat.lt_succ_self _) (hargp₁ hargp) hroom₁ hfuel depth
    refine ⟨s', none, ?_, hs', ?_, nofun⟩
    · simp only [machine, add_option, hremove, Option.bind_some, hadd, Option.map_some]
    · rw [hnames, hnames₁, reference]
  | remove_short short_option =>
    obtain ⟨s', hremove, hs', hnames, -, -⟩ :=
      remove_spec hs (Or.inr rfl) hcareful hfuel (depth + 2)
    refine ⟨s', none, ?_, hs', hnames, nofun⟩
    simp only [machine, hremove, Option.map_some]
  | remove_long long_option =>
    obtain ⟨s', hremove, hs', hnames, -, -⟩ :=
      remove_spec hs (Or.inl le_rfl) hcareful hfuel (depth + 2)
    refine ⟨s', none, ?_, hs', hnames, nofun⟩
    simp only [machine, hremove, Option.map_some]
  | remove_all_options =>
    obtain ⟨hvalid, helems⟩ := zap_spec hs.valid
    refine ⟨s.zap, none, rfl, ⟨hvalid, helems, nodup_nil, nodup_nil, ?_, ?_, ?_,
      hs.negative, ?_, ?_⟩, rfl, nofun⟩
    · exact nofun
    · exact nofun
    · exact nofun
    · exact nofun
    · exact fun cells hcells => absurd hcells (Option.not_mem_none cells)
  | process =>
    obtain ⟨s', cells, hprocess, hs', hlist, hbuilt⟩ := process_spec hs hcareful
    refine ⟨s', some cells, ?_, hs', by rw [hlist, reference], fun _ => ⟨cells, rfl, hlist ▸ hbuilt⟩⟩
    simp only [machine, hprocess, Option.map_some]

/-- In every run of careful calls, the list has the options with the names that are left to them, the
dictionary agrees with it, and the parser gets an array of its options. -/
theorem coherent_runs {fuel : Nat} (hfuel : 2 * 65521 ≤ fuel) (depth : Nat) {ops : List Op}
    (hlegal : ∀ op ∈ ops, Legal op) (hcareful : (machine fuel (depth + 2)).Along Careful {} ops) :
    (machine fuel (depth + 2)).Runs (fun s op s' out =>
      s'.options_list.map names = reference (s.options_list.map names) op ∧ Coherent fuel s' ∧
        (op = .process → ∃ argp_, out = some argp_ ∧ Built s'.options_list argp_)) {} ops := by
  have hrun : ∀ (s : WvArgsData) (op : Op), Sound s → Legal op ∧ Careful s op →
      ∃ s' out, (machine fuel (depth + 2)).step s op = some (s', out) ∧
        (s'.options_list.map names = reference (s.options_list.map names) op ∧ Coherent fuel s' ∧
          (op = .process → ∃ argp_, out = some argp_ ∧ Built s'.options_list argp_)) ∧ Sound s' := by
    intro s op hs hop
    obtain ⟨s', out, hstep, hs', hnames, hbuilt⟩ := step_spec hs hop.1 hop.2 hfuel depth
    exact ⟨s', out, hstep, ⟨hnames, hs'.coherent hfuel, hbuilt⟩, hs'⟩
  exact Machine.runs_of_along hrun sound_new ((Machine.along_of_forall hlegal).and hcareful)

instance decidableLegal : (op : Op) → Decidable (Legal op)
  | .add_option short_option long_option _ _ =>
    inferInstanceAs (Decidable (short_option ≠ 0 ∨ long_option ≠ none))
  | .remove_short _ | .remove_long _ | .remove_all_options | .process => .isTrue trivial

instance decidableSafe (short_option : Int) (long_option : Option Str) (s : WvArgsData)
    (i : WvArgsOption) : Decidable (Safe short_option long_option s i) :=
  inferInstanceAs (Decidable ((matches_short short_option i → matches_long long_option i ∨
    i.long_option = none) ∧ (matches_long long_option i → ¬ matches_short short_option i →
      0 < i.short_option ∧ s.argp_ = none)))

instance decidableCareful (s : WvArgsData) : (op : Op) → Decidable (Careful s op)
  | .add_option short_option long_option _ _ =>
    inferInstanceAs (Decidable (0 ≤ short_option ∧
      (∀ i ∈ s.options_list, Safe short_option long_option s i) ∧
        s.argp_ = none ∧ s.options_list.length < 26208))
  | .remove_short short_option =>
    inferInstanceAs (Decidable (∀ i ∈ s.options_list, Safe short_option none s i))
  | .remove_long long_option =>
    inferInstanceAs (Decidable (∀ i ∈ s.options_list, Safe 0 long_option s i))
  | .remove_all_options => .isTrue trivial
  | .process =>
    inferInstanceAs (Decidable (s.argp_ = none → s.argp_index = 0 ∨ s.options_list = []))

/-- An option loses its names one after the other, and another one is left for the parser. -/
theorem coherent_runs_two : (machine 131042 2).Runs (fun s op s' out =>
    s'.options_list.map names = reference (s.options_list.map names) op ∧ Coherent 131042 s' ∧
      (op = .process → ∃ argp_, out = some argp_ ∧ Built s'.options_list argp_)) {}
    [.add_option 97 (some [97, 97]) none none, .add_option 0 (some [98, 98]) none none,
      .remove_long (some [97, 97]), .remove_short 97, .process] :=
  coherent_runs (by decide) 0 (by decide) (by decide +kernel)

/-- An option with a long name only loses it, and stays in the list and in the dictionary. -/
theorem nameless_option : (∀ op ∈ [Op.add_option 0 (some [98, 98]) none none,
      .remove_long (some [98, 98])], Legal op) ∧
    ¬ (machine 131042 2).Runs (fun _ _ s' _ => Coherent 131042 s') {}
      [.add_option 0 (some [98, 98]) none none, .remove_long (some [98, 98])] := by
  refine ⟨by decide, ?_⟩
  rintro ⟨s₁, _, hadd, -, s₂, _, hremove, hcoherent, -⟩
  have hlist : (((machine 131042 2).step {} (.add_option 0 (some [98, 98]) none none)).bind fun p =>
      ((machine 131042 2).step p.1 (.remove_long (some [98, 98]))).map fun p =>
        p.1.options_list.map names) = some [(0, none)] := by decide +kernel
  rw [hadd, Option.bind_some, hremove, Option.map_some] at hlist
  have hmem : (0, none) ∈ s₂.options_list.map names := by
    rw [Option.some.inj hlist]
    exact mem_cons_self
  obtain ⟨i, hi, hnames⟩ := mem_map.mp hmem
  exact hcoherent.named i hi hnames

end WvArgsData

end WvStreams
