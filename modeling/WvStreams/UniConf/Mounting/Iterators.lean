import WvStreams.UniConf.Mounting.Refine
import WvStreams.UniConf.RecursiveIter

/-!
# The iterators of the mount table

Where each map has the paths to the mounts over it, an iterator gives the children that are
seen (`iterator_names`), and a recursive iterator all that is seen below its key, by the fast
path (`fast_enumerates`) as by the generic one (`generic_enumerates`).
-/

namespace WvStreams

open Lib UniConfKey Mounts List

/-- The names are those of the children with `P`, each once up to case. -/
structure Names (names : List Segment) (P : Segment → Prop) : Prop where
  distinct : (names.map (fold : Segment → Segment)).Nodup
  mem : ∀ s, (∃ name ∈ names, fold name = s) ↔ P s
  nonempty : ∀ name ∈ names, name ≠ []

/-- The keys are those with `P` below the top, each once up to case. -/
structure Enumerates (keys : List UniConfKey) (P : List Segment → Prop) : Prop where
  distinct : (keys.map (map (fold : Segment → Segment))).Nodup
  mem : ∀ p, (∃ d ∈ keys, d.path = p) ↔ p ≠ [] ∧ P p
  plain : ∀ d ∈ keys, d.Plain

theorem Names.congr {names : List Segment} {P Q : Segment → Prop} (h : Names names P)
    (hPQ : ∀ s, P s ↔ Q s) : Names names Q :=
  ⟨h.distinct, fun s => (h.mem s).trans (hPQ s), h.nonempty⟩

theorem Enumerates.congr {keys : List UniConfKey} {P Q : List Segment → Prop}
    (h : Enumerates keys P) (hPQ : ∀ p, P p ↔ Q p) : Enumerates keys Q :=
  ⟨h.distinct, fun p => (h.mem p).trans (and_congr_right fun _ => hPQ p), h.plain⟩

theorem UniTempGen.iterator_names (g : UniTempGen) (key : UniConfKey) :
    Names ((g.iterator key).map Prod.fst) fun s => g.content (key.path ++ [s]) ≠ none := by
  have hlists := g.lists_iterator key
  constructor
  · rw [map_map]
    exact pairwise_map.mpr hlists.distinct
  · intro s
    rw [Option.ne_none_iff_exists']
    constructor
    · rintro ⟨name, hname, rfl⟩
      obtain ⟨⟨name, v⟩, hc, rfl⟩ := List.mem_map.mp hname
      exact ⟨v, (hlists.mem _ v).mp ⟨name, rfl, hc⟩⟩
    · rintro ⟨v, hv⟩
      obtain ⟨name, hfold, hc⟩ := (hlists.mem s v).mpr hv
      exact ⟨name, mem_map_of_mem hc, hfold⟩
  · intro name hname
    obtain ⟨c, hc, rfl⟩ := List.mem_map.mp hname
    exact ne_nil_of_mem_iterator hc

namespace UniTempMounts

open UniMountGen (trimkey)

section

variable {names : UniConfKey → List Segment} {P : List Segment → Prop} {top : UniConfKey}

variable {current : UniConfKey}

theorem concat_current (htop : top.Plain) (hcurrent : current.Plain) :
    (if current.isempty then top else concat top current) = top ++ current := by
  cases current with
  | nil => exact (append_nil top).symm
  | cons s current =>
    have hplain := htop.append hcurrent
    rw [if_neg (by simp [isempty]), UniConfKey.concat, htop.filter_eq, hcurrent.filter_eq, hcurrent.not_slash]
    simpa [isempty] using hplain.collapse_eq

variable (htop : top.Plain)
  (hnames : ∀ key : UniConfKey, key.Plain → Names (names key) fun s => P (key.path ++ [s]))
include htop hnames

theorem recursivekeys_succ (depth : Nat) (hcurrent : current.Plain) :
    recursivekeys names top (depth + 1) current =
      (names (top ++ current)).flatMap fun subkey =>
        (current ++ [subkey]) :: recursivekeys names top depth (current ++ [subkey]) := by
  rw [recursivekeys, concat_current htop hcurrent]
  apply flatMap_congr
  intro name hname
  have hne := (hnames _ (htop.append hcurrent)).nonempty name hname
  rw [concat_name hcurrent hne]

theorem of_mem_recursivekeys {depth : Nat} (hcurrent : current.Plain) {d : UniConfKey}
    (hd : d ∈ recursivekeys names top depth current) :
    (∃ q, q ≠ [] ∧ d = current ++ q) ∧ d.Plain ∧ P (top.path ++ d.path) := by
  induction depth generalizing current with
  | zero => cases hd
  | succ depth ih =>
    rw [recursivekeys_succ htop hnames depth hcurrent] at hd
    obtain ⟨name, hname, hd⟩ := mem_flatMap.mp hd
    have hlist := hnames _ (htop.append hcurrent)
    have hne := hlist.nonempty name hname
    rcases mem_cons.mp hd with rfl | hd
    · refine ⟨⟨[name], cons_ne_nil _ _, rfl⟩, hcurrent.concat hne, ?_⟩
      rw [path_concat current hne rfl, ← append_assoc, ← path_append]
      exact (hlist.mem (fold name)).mp ⟨name, hname, rfl⟩
    · obtain ⟨⟨q, -, rfl⟩, hplain, hP⟩ := ih (hcurrent.concat hne) hd
      refine ⟨⟨name :: q, cons_ne_nil _ _, ?_⟩, hplain, hP⟩
      rw [append_assoc, singleton_append]

theorem recursivekeys_complete (hclosed : ∀ p s, P (p ++ [s]) → P p) {depth : Nat}
    (hcurrent : current.Plain) {q : List Segment} (hq : q ≠ []) (hlen : q.length ≤ depth)
    (h : P (top.path ++ current.path ++ q)) :
    ∃ d ∈ recursivekeys names top depth current, d.path = current.path ++ q := by
  have hprefix : ∀ p r, P (p ++ r) → P p := by
    intro p r
    induction r generalizing p with
    | nil => exact fun h => by rwa [append_nil] at h
    | cons s r ih =>
      intro h
      rw [← singleton_append, ← append_assoc] at h
      exact hclosed p s (ih _ h)
  induction depth generalizing current q with
  | zero => exact absurd (length_eq_zero_iff.mp (Nat.le_zero.mp hlen)) hq
  | succ depth ih =>
    obtain ⟨s, q, rfl⟩ := exists_cons_of_ne_nil hq
    have happ : top.path ++ current.path ++ s :: q = top.path ++ current.path ++ [s] ++ q := by
      rw [append_assoc, append_assoc, append_assoc, singleton_append]
    rw [happ] at h
    have hlist := hnames _ (htop.append hcurrent)
    have hchild := hprefix _ _ h
    rw [← path_append] at hchild
    obtain ⟨name, hname, rfl⟩ := (hlist.mem s).mpr hchild
    have hne := hlist.nonempty name hname
    have hpath : (current ++ [name]).path = current.path ++ [fold name] :=
      path_concat current hne rfl
    rw [recursivekeys_succ htop hnames depth hcurrent]
    cases q with
    | nil =>
      exact ⟨current ++ [name], mem_flatMap.mpr ⟨name, hname, mem_cons_self⟩, hpath⟩
    | cons t q =>
      obtain ⟨d, hd, hdpath⟩ := ih (hcurrent.concat hne) (q := t :: q) (cons_ne_nil t q)
        (Nat.le_of_succ_le_succ hlen) (by rwa [hpath, ← append_assoc])
      refine ⟨d, mem_flatMap.mpr ⟨name, hname, mem_cons_of_mem _ hd⟩, ?_⟩
      rw [hdpath, hpath, append_assoc, singleton_append]

theorem recursivekeys_distinct (depth : Nat) (hcurrent : current.Plain) :
    ((recursivekeys names top depth current).map (map (fold : Segment → Segment))).Nodup := by
  induction depth generalizing current with
  | zero => exact nodup_nil
  | succ depth ih =>
    have hlist := hnames _ (htop.append hcurrent)
    rw [recursivekeys_succ htop hnames depth hcurrent, map_flatMap, nodup_flatMap]
    have hfront : ∀ name ∈ names (top ++ current), ∀ k ∈ ((current ++ [name]) ::
        recursivekeys names top depth (current ++ [name])).map (map fold),
          current.map fold ++ [fold name] <+: k := by
      intro name hname k hk
      obtain ⟨d, hd, rfl⟩ := List.mem_map.mp hk
      rcases mem_cons.mp hd with rfl | hd
      · rw [map_append]
        exact prefix_refl _
      · obtain ⟨⟨q, -, rfl⟩, -⟩ := of_mem_recursivekeys htop hnames
          (hcurrent.concat (hlist.nonempty name hname)) hd
        rw [map_append, map_append]
        exact prefix_append _ _
    constructor
    · intro name hname
      have hplain : (current ++ [name]).Plain := hcurrent.concat (hlist.nonempty name hname)
      rw [map_cons, nodup_cons]
      refine ⟨fun hmem => ?_, ih hplain⟩
      obtain ⟨d, hd, he⟩ := List.mem_map.mp hmem
      obtain ⟨⟨q, hq, rfl⟩, -⟩ := of_mem_recursivekeys htop hnames hplain hd
      rw [map_append, append_right_eq_self, map_eq_nil_iff] at he
      exact hq he
    · have hpair := pairwise_map.mp hlist.distinct
      apply hpair.imp_of_mem
      intro a b ha hb hne k hka hkb
      have hka' := hfront a ha k hka
      have hkb' := hfront b hb k hkb
      have heq := prefix_of_prefix_length_le hka' hkb' (by simp)
      have hself := heq.eq_of_length (by simp)
      exact hne (singleton_inj.mp (append_cancel_left hself))

theorem recursivekeys_enumerates (hclosed : ∀ p s, P (p ++ [s]) → P p) {depth : Nat}
    (hdepth : ∀ p, P (top.path ++ p) → p.length ≤ depth) :
    Enumerates (recursivekeys names top depth []) fun p => P (top.path ++ p) := by
  refine ⟨recursivekeys_distinct htop hnames depth plain_nil, fun p => ?_, fun d hd =>
    (of_mem_recursivekeys htop hnames plain_nil hd).2.1⟩
  constructor
  · rintro ⟨d, hd, rfl⟩
    obtain ⟨⟨q, hq, rfl⟩, hplain, hP⟩ := of_mem_recursivekeys htop hnames plain_nil hd
    refine ⟨?_, hP⟩
    rw [hplain.path_eq]
    exact fun e => hq (map_eq_nil_iff.mp e)
  · rintro ⟨hp, hP⟩
    have h := recursivekeys_complete htop hnames hclosed plain_nil hp (hdepth p hP)
      (by rwa [path_nil, append_nil])
    rwa [path_nil] at h

end

/-- Mount points that nothing is mounted above are spelled alike where they go together. -/
def Alike (keys : List UniConfKey) : Prop :=
  ∀ a ∈ keys, ∀ b ∈ keys, ∀ n < a.length,
    (a.take (n + 1)).map fold = (b.take (n + 1)).map (fold : Segment → Segment) →
      (∀ c ∈ keys, ¬ c.path <+: UniConfKey.path (a.take n)) → a[n]? = b[n]?

instance (keys : List UniConfKey) : Decidable (Alike keys) := by
  unfold Alike
  infer_instance

theorem nodup_eraseDups (l : List Segment) : l.eraseDups.Nodup := by
  have hlen : ∀ n, ∀ l : List Segment, l.length ≤ n → l.eraseDups.Nodup := by
    intro n
    induction n with
    | zero =>
      intro l hl
      rw [length_eq_zero_iff.mp (Nat.le_zero.mp hl)]
      exact nodup_nil
    | succ n ih =>
      intro l hl
      cases l with
      | nil => exact nodup_nil
      | cons a l =>
        rw [eraseDups_cons, nodup_cons, mem_eraseDups, mem_filter]
        refine ⟨fun hmem => by simp at hmem, ih _ ?_⟩
        exact (length_filter_le _ _).trans (Nat.le_of_succ_le_succ hl)
  exact hlen l.length l le_rfl

variable {key : UniConfKey} {t : UniTempMounts} {found : UniTempMount}

theorem printable_segment (hkey : key.Plain) {n : Nat} (hn : n < key.length) :
    printable ((key.firstN (n + 1)).lastN 1) = key[n] := by
  have htake : Plain (key.take (n + 1)) := fun hmem => hkey (mem_of_mem_take hmem)
  have hlen : (key.take (n + 1)).length = n + 1 := length_take_of_le hn
  have hlast : lastN (key.take (n + 1)) 1 = [key[n]] := by
    rw [lastN, htake.range, take_length, hlen, Nat.add_sub_cancel,
      take_succ_eq_append_getElem hn, drop_left' (length_take_of_le hn.le)]
  rw [hkey.firstN, hlast, printable, intercalate_singleton]

theorem mem_mountnames (ht : Tidy t) (hkey : key.Plain) {name : Segment} :
    name ∈ UniMountGen.mountnames (t.map UniTempMount.mount) key ↔
      ∃ m ∈ t, key.path <+: m.key.val.path ∧ m.key.val[key.length]? = some name := by
  unfold UniMountGen.mountnames
  rw [(mergeSort_perm _ _).mem_iff, mem_eraseDups, filterMap_map, mem_filterMap]
  apply exists_congr
  intro m
  apply and_congr_right
  intro hm
  have hplain := ht.plain m hm
  have hsub := hkey.suborsame_iff hplain.valid
  rw [Function.comp_apply, Option.ite_none_right_eq_some, Bool.and_eq_true, decide_eq_true_eq]
  constructor
  · rintro ⟨⟨hlen, hbelow⟩, he⟩
    refine ⟨hsub.mp hbelow, ?_⟩
    rw [← he]
    exact (getElem?_eq_getElem hlen).trans
      (congrArg some (printable_segment hplain hlen).symm)
  · rintro ⟨hbelow, he⟩
    obtain ⟨hlen, hname⟩ := List.getElem?_eq_some_iff.mp he
    refine ⟨⟨hlen, hsub.mpr hbelow⟩, ?_⟩
    rw [← hname, ← printable_segment hplain hlen]
    rfl

theorem concat_prefix_iff {base : UniConfKey} (hkey : key.Plain) (hbase : base.Plain)
    (s : Segment) : key.path ++ [s] <+: base.path ↔
      key.path <+: base.path ∧ ∃ name, base[key.length]? = some name ∧ fold name = s := by
  have hget : base.path[key.path.length]? = base[key.length]?.map fold := by
    rw [hbase.path_eq, hkey.length_path, getElem?_map]
  rw [← Option.map_eq_some_iff, ← hget]
  constructor
  · intro h
    refine ⟨(prefix_append _ _).trans h, ?_⟩
    obtain ⟨r, hr⟩ := h
    rw [← hr, append_assoc, getElem?_append_right le_rfl, Nat.sub_self]
    rfl
  · rintro ⟨⟨r, hr⟩, hs⟩
    rw [← hr, getElem?_append_right le_rfl, Nat.sub_self] at hs
    cases r with
    | nil => cases hs
    | cons t r =>
      obtain rfl := Option.some.inj hs
      rw [← hr]
      exact ⟨r, by rw [append_assoc, singleton_append]⟩

theorem mountnames_names (ht : Tidy t) (halike : Alike (t.map (·.key.val))) (hkey : key.Plain)
    (hnone : findmount t key = none) :
    Names (UniMountGen.mountnames (t.map UniTempMount.mount) key) fun s =>
      ∃ m ∈ mounts t, key.path ++ [s] <+: m.path := by
  have howner := owner_mounts ht hkey.valid
  rw [hnone] at howner
  have huncovered := owner_eq_none.mp howner
  constructor
  · apply List.Nodup.map_on
    · intro a ha b hb he
      obtain ⟨m, hm, hmkey, hma⟩ := (mem_mountnames ht hkey).mp ha
      obtain ⟨n, hn, hnkey, hnb⟩ := (mem_mountnames ht hkey).mp hb
      have hmplain := ht.plain m hm
      have hnplain := ht.plain n hn
      have htake : ∀ {k : UniConfKey} {c : Segment}, k.Plain → key.path <+: k.path →
          k[key.length]? = some c → (k.take (key.length + 1)).map fold = key.path ++ [fold c] ∧
            path (k.take key.length) = key.path := by
        intro k c hk hpre hc
        have hkeep : Plain (k.take key.length) :=
          fun hmem => hk (mem_of_mem_take hmem)
        obtain ⟨hlen, hget⟩ := List.getElem?_eq_some_iff.mp hc
        have hpath : (k.take key.length).map fold = key.path := by
          rw [map_take, ← hk.path_eq, ← hkey.length_path]
          exact (prefix_iff_eq_take.mp hpre).symm
        refine ⟨?_, by rw [hkeep.path_eq, hpath]⟩
        rw [take_succ_eq_append_getElem hlen, map_append, hpath, hget]
        rfl
      have hsame := halike m.key.val (mem_map_of_mem hm) n.key.val (mem_map_of_mem hn)
        key.length (List.getElem?_eq_some_iff.mp hma).1 (by
          rw [(htake hmplain hmkey hma).1, (htake hnplain hnkey hnb).1, he]) (by
          intro c hc hpre
          obtain ⟨x, hx, rfl⟩ := List.mem_map.mp hc
          rw [(htake hmplain hmkey hma).2] at hpre
          exact huncovered (mounted x) (mem_map_of_mem hx) hpre)
      rw [hma, hnb] at hsame
      exact Option.some.inj hsame
    · exact (mergeSort_perm _ _).nodup_iff.mpr (nodup_eraseDups _)
  · intro s
    constructor
    · rintro ⟨name, hname, rfl⟩
      obtain ⟨m, hm, hpre, hget⟩ := (mem_mountnames ht hkey).mp hname
      refine ⟨mounted m, mem_map_of_mem hm, ?_⟩
      exact (concat_prefix_iff hkey (ht.plain m hm) _).mpr ⟨hpre, name, hget, rfl⟩
    · rintro ⟨x, hx, hpre⟩
      obtain ⟨m, hm, rfl⟩ := List.mem_map.mp hx
      obtain ⟨hbelow, name, hget, hfold⟩ := (concat_prefix_iff hkey (ht.plain m hm) s).mp hpre
      exact ⟨name, (mem_mountnames ht hkey).mpr ⟨m, hm, hbelow, hget⟩, hfold⟩
  · rintro name hname rfl
    obtain ⟨m, hm, -, hget⟩ := (mem_mountnames ht hkey).mp hname
    exact ht.plain m hm (mem_of_getElem? hget)

/-- Every mount can be reached, and its name is the same wherever it is read. -/
structure Sound (t : UniTempMounts) : Prop where
  tidy : Tidy t
  led : Mounts.Led (mounts t)
  rooted : Mounts.Rooted (mounts t)
  alike : Alike (t.map (·.key.val))

theorem closed_mounts (t : UniTempMounts) : ∀ m ∈ mounts t, m.map.Closed := by
  intro m hm
  obtain ⟨m, -, rfl⟩ := List.mem_map.mp hm
  exact m.temp.content_closed

theorem iterator_names (h : Sound t) (hkey : key.Plain) :
    Names (iterator t key) fun s => look [] (mounts t) (key.path ++ [s]) ≠ none := by
  have howner := owner_mounts h.tidy hkey.valid
  unfold iterator
  cases hfound : findmount t key with
  | none =>
    rw [hfound] at howner
    exact (mountnames_names h.tidy h.alike hkey hfound).congr fun s =>
      (look_concat_none_iff [] h.rooted howner s).symm
  | some found =>
    rw [hfound] at howner
    apply (found.temp.iterator_names (trimkey found.key key)).congr
    intro s
    have hpre := findmount_above h.tidy hkey.valid hfound
    rw [look_concat_iff [] h.led h.rooted howner s, path_trimkey
      (h.tidy.plain found (mem_of_find?_eq_some hfound)) hkey.valid hpre,
      ← drop_append_of_le_length hpre.length_le]
    rfl

/-- No path is longer. -/
def depth : UniTempMounts → Nat
  | [] => 0
  | m :: t => max (m.key.val.length + m.temp.depth) (depth t)

theorem le_depth {m : UniTempMount} (hm : m ∈ t) : m.key.val.length + m.temp.depth ≤ depth t := by
  induction t with
  | nil => cases hm
  | cons n t ih =>
    rcases mem_cons.mp hm with rfl | hm
    · exact le_max_left _ _
    · exact (ih hm).trans (le_max_right _ _)

theorem length_le_depth (ht : Tidy t) {p : List Segment} (h : look [] (mounts t) p ≠ none) :
    p.length ≤ depth t := by
  cases ho : owner (mounts t) p with
  | none =>
    obtain ⟨s, hs⟩ := (look_none [] ho).mp h
    obtain ⟨x, hx, hpre⟩ := (leads_iff ho s).mp hs
    obtain ⟨m, hm, rfl⟩ := List.mem_map.mp hx
    have hlen := hpre.length_le
    have hpath : (mounted m).path.length = m.key.val.length := (ht.plain m hm).length_path
    rw [length_append, hpath] at hlen
    exact (Nat.le_of_add_right_le hlen).trans ((Nat.le_add_right _ _).trans (le_depth hm))
  | some o =>
    obtain ⟨m, hm, rfl⟩ := List.mem_map.mp (mem_of_find?_eq_some ho)
    rw [look_some [] ho] at h
    have hlen := UniTempGen.length_le_depth h
    have hpath : (mounted m).path.length = m.key.val.length := (ht.plain m hm).length_path
    have hpre := (owner_above ho).length_le
    rw [length_drop, hpath] at hlen
    have := le_depth hm
    omega

theorem generic_enumerates (h : Sound t) (hkey : key.Plain) {n : Nat} (hn : depth t ≤ n) :
    Enumerates (recursivekeys (iterator t) key n [])
      fun p => look [] (mounts t) (key.path ++ p) ≠ none := by
  apply recursivekeys_enumerates (P := fun p => look [] (mounts t) p ≠ none) hkey
    (fun _ => iterator_names h)
  · exact fun p s => look_ne_none_of_concat [] h.led h.rooted (closed_mounts t)
  · intro p hp
    have hlen := length_le_depth h.tidy hp
    rw [length_append] at hlen
    omega

def countunder (key : UniConfKey) (r : Option UniTempMount × Nat) (m : UniTempMount) :
    Option UniTempMount × Nat :=
  if m.key.val.suborsame key && r.1.isNone then (some m, r.2 + 1)
  else if key.suborsame m.key then (r.1, r.2 + 1)
  else r

theorem countunder_some (key : UniConfKey) (found : UniTempMount) (n : Nat) (t : UniTempMounts) :
    t.foldl (countunder key) (some found, n) =
      (some found, n + t.countP fun m => key.suborsame m.key) := by
  induction t generalizing n with
  | nil => rfl
  | cons m t ih =>
    have hstep : countunder key (some found, n) m =
        (some found, n + if key.suborsame m.key then 1 else 0) := by
      unfold countunder
      rw [Option.isNone_some, Bool.and_false, if_neg Bool.false_ne_true]
      split <;> rfl
    rw [foldl_cons, hstep, ih, countP_cons, Nat.add_assoc, Nat.add_comm (ite _ _ _)]

theorem countunder_none (key : UniConfKey) (n : Nat) (t : UniTempMounts) {num : Nat}
    (h : t.foldl (countunder key) (none, n) = (some found, num)) :
    ∃ xs ys, t = xs ++ found :: ys ∧ findmount t key = some found ∧
      num = n + 1 + (xs ++ ys).countP fun m => key.suborsame m.key := by
  induction t generalizing n with
  | nil => cases h
  | cons m t ih =>
    rw [foldl_cons] at h
    by_cases hsub : m.key.val.suborsame key = true
    · have hstep : countunder key (none, n) m = (some m, n + 1) := by
        unfold countunder
        rw [hsub]
        rfl
      rw [hstep, countunder_some] at h
      obtain ⟨hfound, rfl⟩ := Prod.mk.inj h
      obtain rfl := Option.some.inj hfound
      exact ⟨[], t, rfl, findmount_cons_pos hsub t, rfl⟩
    · have hstep : countunder key (none, n) m =
          (none, n + if key.suborsame m.key then 1 else 0) := by
        unfold countunder
        rw [Bool.eq_false_iff.mpr hsub, Bool.false_and, if_neg Bool.false_ne_true]
        split <;> rfl
      rw [hstep] at h
      obtain ⟨xs, ys, rfl, hfound, rfl⟩ := ih _ h
      refine ⟨m :: xs, ys, rfl, (findmount_cons_neg hsub _).trans hfound, ?_⟩
      rw [cons_append, countP_cons]
      omega

theorem findmountunder_spec (h : findmountunder t key = some found) : findmount t key = some found ∧
      ∀ m ∈ t, m = found ∨ ¬ key.suborsame m.key = true := by
  have hfold : findmountunder t key =
      if (t.foldl (countunder key) (none, 0)).2 = 1 then (t.foldl (countunder key) (none, 0)).1
      else none := rfl
  rw [hfold] at h
  split_ifs at h with hone
  have hpair : t.foldl (countunder key) (none, 0) =
      (some found, (t.foldl (countunder key) (none, 0)).2) := by rw [← h]
  obtain ⟨xs, ys, rfl, hfound, hnum⟩ := countunder_none key 0 t hpair
  refine ⟨hfound, fun m hm => ?_⟩
  have hzero : (xs ++ ys).countP (fun m => key.suborsame m.key) = 0 := by omega
  rw [countP_eq_zero] at hzero
  rw [mem_append, mem_cons] at hm
  rcases hm with hm | rfl | hm
  · exact Or.inr (hzero m (mem_append_left ys hm))
  · exact Or.inl rfl
  · exact Or.inr (hzero m (mem_append_right xs hm))

theorem look_under (ht : Tidy t) (hkey : key.Plain) (h : findmountunder t key = some found)
    (p : List Segment) :
    look [] (mounts t) (key.path ++ p) =
      found.temp.content ((trimkey found.key key).path ++ p) := by
  obtain ⟨hfound, hothers⟩ := findmountunder_spec h
  have hpre := findmount_above ht hkey.valid hfound
  have hplain := ht.plain found (mem_of_find?_eq_some hfound)
  have howner : owner (mounts t) (key.path ++ p) = some (mounted found) := by
    have hself := owner_mounts ht hkey.valid
    rw [hfound] at hself
    clear h hfound
    induction p using reverseRecOn with
    | nil => rwa [append_nil]
    | append_singleton p s ih =>
      rw [← append_assoc]
      rcases owner_concat ih s with hsame | ⟨x, hx, hpath, -⟩
      · exact hsame
      · obtain ⟨m, hm, rfl⟩ := List.mem_map.mp (mem_of_find?_eq_some hx)
        rcases hothers m hm with rfl | hno
        · exact hx
        · have hbelow : key.path <+: m.key.val.path := by
            have hpath' : m.key.val.path = key.path ++ p ++ [s] := hpath
            rw [hpath', append_assoc]
            exact prefix_append _ _
          exact absurd ((hkey.suborsame_iff (ht.plain m hm).valid).mpr hbelow) hno
  rw [look_some [] howner, path_trimkey hplain hkey.valid hpre,
    ← drop_append_of_le_length hpre.length_le]
  rfl

theorem fast_enumerates (ht : Tidy t) (hkey : key.Plain) (h : findmountunder t key = some found)
    {n : Nat} (hn : depth t ≤ n) :
    Enumerates (recursivekeys (fun key => (found.temp.iterator key).map Prod.fst)
      (trimkey found.key key) n [])
        fun p => look [] (mounts t) (key.path ++ p) ≠ none := by
  have htop : (trimkey found.key key).Plain := hkey.trimkey
  have hlen : ∀ p, found.temp.content ((trimkey found.key key).path ++ p) ≠ none →
      p.length ≤ n := by
    intro p hp
    rw [← look_under ht hkey h] at hp
    have hlen := length_le_depth ht hp
    rw [length_append] at hlen
    omega
  have hcontent := recursivekeys_enumerates (P := fun p => found.temp.content p ≠ none) htop
    (fun key _ => found.temp.iterator_names key)
    (fun p s hs hnone => hs (found.temp.content_closed p [s] hnone)) hlen
  apply hcontent.congr
  intro p
  rw [look_under ht hkey h]

theorem recursiveiterator_enumerates (h : Sound t) (hkey : key.Plain) {n : Nat} (hn : depth t ≤ n) :
    Enumerates (recursiveiterator t n key)
      fun p => look [] (mounts t) (key.path ++ p) ≠ none := by
  unfold recursiveiterator
  cases hfound : findmountunder t key with
  | none => exact generic_enumerates h hkey hn
  | some found => exact fast_enumerates h.tidy hkey hfound hn

end UniTempMounts

end WvStreams
