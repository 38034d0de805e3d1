import WvStreams.Lib.Glob
import WvStreams.UniConf.RecursiveIter
import WvStreams.UniConf.SubKey

/-!
# `UniConf::XIter`

The iterator over the keys that match a pattern, in a tree that is a `UniTempGen` mounted at the
root. It yields a key once for each of the ways to match that `Wild.ways` counts
(`counts_of_lt`), which decides for which trees and patterns it is right (`xiter_exact_iff`).
-/

namespace WvStreams

open Lib UniTempGen Wild List

namespace UniConfKey

def ANY : UniConfKey := [[42]]

def RECURSIVE_ANY : UniConfKey := [[46, 46, 46]]

def wildSegment (s : Segment) : Bool := s = [42] || s = [46, 46, 46]

def iswild (key : UniConfKey) : Bool := key.any wildSegment

/-- The loop of `matches`, down to some number of segments of the pattern. -/
def matchesLoop : Nat → UniConfKey → UniConfKey → Bool
  | 0, key, pattern => key.same pattern
  | n + 1, key, pattern =>
    if key.same pattern then true
    else
      let head := pattern.first
      if head.same ANY then
        if key.isempty then false else matchesLoop n key.removefirst pattern.removefirst
      else if head.same RECURSIVE_ANY then
        let tail := pattern.removefirst
        if tail.isempty then true
        else (List.range (key.length + 1)).any fun n' => matchesLoop n (key.removefirstN n') tail
      else false

def matches_ (key pattern : UniConfKey) : Bool := matchesLoop pattern.length key pattern

/-- What a segment of a pattern stands for. -/
def wild (s : Segment) : Wild Segment :=
  if s = [42] then .one else if s = [46, 46, 46] then .many else .lit (fold s)

def wilds (pattern : UniConfKey) : List (Wild Segment) := pattern.map wild

end UniConfKey

namespace XIter

/-- The loop of the constructor: consecutive segments that are not wild come to the head. -/
def collect : Nat → UniConfKey → UniConfKey → UniConfKey × UniConfKey
  | 0, pathead, pattail => (pathead, pattail)
  | n + 1, pathead, pattail =>
    if pattail.isempty then (pathead, pattail)
    else
      let patnext := pattail.first
      if patnext.iswild then (pathead, pattail)
      else collect n (pathead.append patnext) pattail.removefirst

/-- The constructor: `pathead` and `pattail`. -/
def parts (pattern : UniConfKey) : UniConfKey × UniConfKey :=
  let pathead := pattern.first
  let pattail := pattern.removefirst
  if !pathead.iswild then collect pattern.length pathead pattail else (pathead, pattail)

/-- The keys that `next` goes to after `rewind`, in their order. The number bounds the depth of
sub-iterators; each has a shorter pattern than the one it is in. -/
def yields (g : UniTempGen) : Nat → UniConfKey → UniConfKey → List UniConfKey
  | 0, _, _ => []
  | n + 1, top, pattern =>
    let (pathead, pattail) := parts pattern
    -- a sub-iterator is run to its end before the next one is entered
    let enter (child : UniConfKey) := yields g n child pattail
    if pathead.isempty then if g.exists_ top then [top] else []
    else if pathead.same UniConfKey.RECURSIVE_ANY then
      -- pattern includes self
      (if UniConfKey.matches_ [] pattail && g.exists_ top then [top] else []) ++
        (UniTempGen.gen.recursiveiterator g.depth top g).flatMap fun e => enter e.1
    else if pathead.same UniConfKey.ANY then
      (g.iterator top).flatMap fun c => enter (UniConfKey.concat top [c.1])
    else
      let current := UniConfKey.concat top pathead
      if pattail.isempty then if g.exists_ current then [current] else []
      else enter current

def xiter (g : UniTempGen) (top pattern : UniConfKey) : List UniConfKey :=
  yields g (pattern.length + 1) top pattern

/-- The key with the path `q` below `top`, or `top` itself, exists. -/
def Below (g : UniTempGen) (top : UniConfKey) (q : List Segment) : Prop :=
  if q = [] then g.exists_ top = true else g.content (top.path ++ q) ≠ none

/-- The iterator yields each key below or at `top` that exists and matches, once. -/
structure Exact (g : UniTempGen) (top pattern : UniConfKey) : Prop where
  once : ((xiter g top pattern).map UniConfKey.path).Nodup
  mem : ∀ p, p ∈ (xiter g top pattern).map UniConfKey.path ↔
    ∃ q, p = top.path ++ q ∧ Below g top q ∧ Wild.Matches pattern.wilds q

/-! ## The parts of a pattern -/

theorem tolower_eq {c d : Byte} (hd : d < 97) (h : tolower c = d) : c = d := by
  unfold tolower at h
  split at h
  · rename_i hc
    simp only [UInt8.le_iff_toNat_le, UInt8.lt_iff_toNat_lt, UInt8.reduceToNat] at hc hd
    rw [← h, UInt8.toNat_add] at hd
    simp only [UInt8.reduceToNat] at hd
    omega
  · exact h

open UniConfKey

theorem same_segment {t : Segment} (ht : ∀ c ∈ t, tolower c = c ∧ c < 97) (s : Segment) :
    same [s] [t] = decide (s = t) := by
  have hself : fold t = (t : Segment) :=
    (map_congr_left fun c hc => (ht c hc).1).trans (map_id t)
  have hiff : [s].map fold = [t].map fold ↔ s = t := by
    constructor
    · intro h
      have hfold : s.map tolower = t := by
        have hs : fold s = (t : Segment) := by simpa [hself] using h
        exact hs
      have hlen : s.length = t.length := by simpa using congrArg length hfold
      apply ext_getElem hlen
      intro i hi hit
      have hc : tolower s[i] = t[i] := by
        simp [← hfold]
      exact tolower_eq (ht _ (getElem_mem hit)).2 hc
    · rintro rfl
      rfl
  rw [same, Bool.eq_iff_iff, beq_iff_eq, decide_eq_true_iff]
  exact hiff

theorem same_any (s : Segment) : same [s] ANY = decide (s = [42]) :=
  same_segment (by decide) s

theorem same_recursive_any (s : Segment) : same [s] RECURSIVE_ANY = decide (s = [46, 46, 46]) :=
  same_segment (by decide) s

variable {s : Segment} {rest : UniConfKey}

theorem first_cons (h : Plain (s :: rest)) : first (s :: rest) = [s] := by
  have hs : Plain [s] :=
    plain_cons.mpr ⟨(plain_cons.mp h).1, plain_nil⟩
  exact hs.collapse_eq

theorem removefirst_cons (h : Plain (s :: rest)) : removefirst (s :: rest) = rest :=
  (plain_cons.mp h).2.collapse_eq

theorem append_plain {key _key : UniConfKey} (h : key.Plain) (hk : _key.Plain) (hne : _key ≠ []) :
    key.append _key = key ++ _key := by
  rw [append, hk.filter_eq, hk.not_slash]
  have hempty : isempty _key = false := by simpa [isempty] using hne
  rw [hempty]
  simpa using (h.append hk).collapse_eq

theorem collect_spec {n : Nat} {pathead pattail : UniConfKey} (hhead : pathead.Plain)
    (htail : pattail.Plain) (hn : pattail.length ≤ n) :
    ∃ lits rest : UniConfKey, pattail = lits ++ rest ∧ (∀ s ∈ lits, wildSegment s = false) ∧
      collect n pathead pattail = (pathead ++ lits, rest) := by
  induction n generalizing pathead pattail with
  | zero =>
    have hnil := length_eq_zero_iff.mp (Nat.le_zero.mp hn)
    refine ⟨[], [], hnil, forall_mem_nil _, ?_⟩
    rw [hnil, append_nil]
    rfl
  | succ n ih =>
    cases pattail with
    | nil =>
      refine ⟨[], [], rfl, forall_mem_nil _, ?_⟩
      rw [append_nil]
      rfl
    | cons s rest =>
      rw [collect, first_cons htail, removefirst_cons htail]
      by_cases hs : wildSegment s = true
      · refine ⟨[], s :: rest, rfl, forall_mem_nil _, ?_⟩
        simp [isempty, iswild, hs]
      · obtain ⟨hsne, hrest⟩ := plain_cons.mp htail
        have hsplain : Plain [s] :=
          plain_cons.mpr ⟨hsne, plain_nil⟩
        obtain ⟨lits, rest', hsplit, hlits, hcollect⟩ :=
          ih (hhead.append hsplain) hrest (Nat.le_of_succ_le_succ hn)
        refine ⟨s :: lits, rest', by rw [hsplit, cons_append], ?_, ?_⟩
        · exact forall_mem_cons.mpr ⟨by simpa using hs, hlits⟩
        · have happ := append_plain hhead hsplain (cons_ne_nil _ _)
          simp [isempty, iswild, hs, happ, hcollect]

theorem parts_wild (h : Plain (s :: rest)) (hs : wildSegment s = true) :
    parts (s :: rest) = ([s], rest) := by
  rw [parts, first_cons h, removefirst_cons h]
  simp [iswild, hs]

theorem parts_lit (h : Plain (s :: rest)) (hs : wildSegment s = false) :
    ∃ lits rest' : UniConfKey, s :: rest = lits ++ rest' ∧ (∀ s ∈ lits, wildSegment s = false) ∧
      lits ≠ [] ∧ parts (s :: rest) = (lits, rest') := by
  obtain ⟨hsne, hrest⟩ := plain_cons.mp h
  have hsplain : Plain [s] := plain_cons.mpr ⟨hsne, plain_nil⟩
  obtain ⟨lits, rest', hsplit, hlits, hcollect⟩ :=
    collect_spec hsplain hrest (Nat.le_succ rest.length)
  refine ⟨s :: lits, rest', by rw [hsplit, cons_append], ?_, cons_ne_nil _ _, ?_⟩
  · exact forall_mem_cons.mpr ⟨hs, hlits⟩
  · rw [parts, first_cons h, removefirst_cons h]
    simp only [iswild, any_cons, hs, any_nil, Bool.or_self, Bool.not_false, if_true]
    exact hcollect

theorem wild_of_lit (h : wildSegment s = false) : wild s = .lit (fold s) := by
  simp only [wildSegment, Bool.or_eq_false_iff, decide_eq_false_iff_not] at h
  rw [wild, if_neg h.1, if_neg h.2]

theorem wilds_append (a b : UniConfKey) : wilds (a ++ b) = wilds a ++ wilds b := map_append

theorem wilds_lits {lits : UniConfKey} (hplain : lits.Plain)
    (h : ∀ s ∈ lits, wildSegment s = false) : lits.wilds = lits.path.map lit := by
  rw [hplain.path_eq, map_map]
  apply map_congr_left
  intro s hs
  exact wild_of_lit (h s hs)

theorem empty_matches_iff {pattern : UniConfKey} (h : pattern.Plain) :
    matches_ [] pattern = true ↔ ∀ x ∈ pattern.wilds, x = .many := by
  unfold matches_
  induction pattern with
  | nil => simp [matchesLoop, same, wilds]
  | cons s rest ih =>
    have hrest := (plain_cons.mp h).2
    have hne : same [] (s :: rest) = false := rfl
    have hwilds : wilds (s :: rest) = wild s :: wilds rest := rfl
    rw [length_cons, matchesLoop, hne, first_cons h, removefirst_cons h, hwilds, forall_mem_cons]
    dsimp only
    rw [same_any, same_recursive_any]
    by_cases hany : s = [42]
    · subst hany
      simp [wild, isempty]
    · by_cases hrec : s = [46, 46, 46]
      · subst hrec
        have hparts : (List.range (([] : UniConfKey).length + 1)).any
            (fun n' => matchesLoop (length rest)
              (removefirstN [] n') rest) =
            matchesLoop (length rest) [] rest := by
          simp [removefirstN, UniConfKey.range, collapse]
        have hwild : wild [46, 46, 46] = .many := rfl
        simp only [hany, decide_false, decide_true, Bool.false_eq_true, if_false, if_true, hparts,
          hwild, true_and]
        cases rest with
        | nil => simp [isempty, wilds]
        | cons t rest => simpa [isempty] using ih hrest
      · simp [hany, hrec, wild]

/-! ## How often a path is yielded -/

def hits (p : List Segment) (l : List UniConfKey) : Nat := (l.map UniConfKey.path).count p

theorem hits_append (p : List Segment) (l l' : List UniConfKey) :
    hits p (l ++ l') = hits p l + hits p l' := by
  rw [hits, map_append, count_append]
  rfl

theorem hits_flatMap {α : Type} (p : List Segment) (l : List α) (f : α → List UniConfKey) :
    hits p (l.flatMap f) = (l.map fun a => hits p (f a)).sum := by
  rw [hits, map_flatMap, count_flatMap]
  rfl

theorem hits_eq_zero {p : List Segment} {l : List UniConfKey} (h : ∀ k ∈ l, k.path ≠ p) :
    hits p l = 0 := by
  apply count_eq_zero.mpr
  intro hmem
  obtain ⟨k, hk, hp⟩ := List.mem_map.mp hmem
  exact h k hk hp

theorem hits_self (p : List Segment) (key : UniConfKey) (b : Bool) :
    hits p (if b then [key] else []) = if b = true ∧ key.path = p then 1 else 0 := by
  cases b <;> simp [hits, count_singleton]

theorem sum_map_of_unique {α κ : Type} {l : List α} (name : α → κ) {F : α → Nat}
    (hd : l.Pairwise fun a b => name a ≠ name b) {c : α} (hc : c ∈ l)
    (hF : ∀ a ∈ l, F a ≠ 0 → name a = name c) : (l.map F).sum = F c := by
  induction l with
  | nil => cases hc
  | cons a l ih =>
    obtain ⟨hne, hd⟩ := pairwise_cons.mp hd
    rw [map_cons, sum_cons]
    rcases mem_cons.mp hc with rfl | hc
    · have hzero : (l.map F).sum = 0 := by
        apply sum_eq_zero
        intro n hn
        obtain ⟨b, hb, rfl⟩ := List.mem_map.mp hn
        by_contra hFb
        exact hne b hb (hF b (mem_cons_of_mem _ hb) hFb).symm
      rw [hzero, Nat.add_zero]
    · have hzero : F a = 0 := by
        by_contra hFa
        exact hne c hc (hF a mem_cons_self hFa)
      rw [hzero, Nat.zero_add]
      exact ih hd hc fun b hb => hF b (mem_cons_of_mem _ hb)

section

variable (g : UniTempGen)

theorem concat_plain (top : UniConfKey) {key : UniConfKey} (hkey : key.Plain) (hne : key ≠ []) :
    (top.concat key).Plain ∧ (top.concat key).path = top.path ++ key.path := by
  refine ⟨?_, path_concatKey top key⟩
  have hplain : Plain (top.filter (· ≠ []) ++ key) := by
    apply Plain.append _ hkey
    intro h
    simpa using (mem_filter.mp h).2
  have hempty : isempty key = false := by simpa [isempty] using hne
  rw [UniConfKey.concat, hkey.filter_eq, hkey.not_slash, hempty]
  simp only [Bool.or_self, Bool.false_eq_true, if_false, append_nil]
  rwa [hplain.collapse_eq]

variable {n : Nat} {pattern rest top : UniConfKey}

theorem child_path {c : Segment × Str} (hc : c ∈ g.iterator top) :
    (top.concat [c.1]).Plain ∧ (top.concat [c.1]).path = top.path ++ [fold c.1] := by
  have hname : Plain [c.1] :=
    plain_cons.mpr ⟨ne_nil_of_mem_iterator hc, plain_nil⟩
  have h := concat_plain top hname (cons_ne_nil _ _)
  rw [hname.path_eq] at h
  exact h

theorem hits_children (top : UniConfKey) (f : UniConfKey → List UniConfKey) (N : List Segment → Nat)
    (hpre : ∀ c ∈ g.iterator top, ∀ k ∈ f (top.concat [c.1]), (top.concat [c.1]).path <+: k.path)
    (hN : ∀ c ∈ g.iterator top, ∀ q, hits ((top.concat [c.1]).path ++ q)
      (f (top.concat [c.1])) =
        if g.content ((top.concat [c.1]).path ++ q) ≠ none then N q else 0) (q : List Segment) :
    hits (top.path ++ q) ((g.iterator top).flatMap fun c => f (top.concat [c.1])) =
      match q with
      | [] => 0
      | _ :: q' => if g.content (top.path ++ q) ≠ none then N q' else 0 := by
  have hlists := g.lists_iterator top
  rw [hits_flatMap]
  have hnone : (∀ c ∈ g.iterator top, ¬ top.path ++ [fold c.1] <+: top.path ++ q) →
      ((g.iterator top).map fun c =>
        hits (top.path ++ q) (f (top.concat [c.1]))).sum = 0 := by
    intro h
    apply sum_eq_zero
    intro n hn
    obtain ⟨c, hc, rfl⟩ := List.mem_map.mp hn
    apply hits_eq_zero
    intro k hk he
    have hk' := hpre c hc k hk
    rw [(child_path g hc).2, he] at hk'
    exact h c hc hk'
  cases q with
  | nil =>
    apply hnone
    intro c _ hpre
    have hlen := hpre.length_le
    simp only [length_append, length_cons, length_nil] at hlen
    omega
  | cons s q =>
    dsimp only
    by_cases hex : ∃ c ∈ g.iterator top, fold c.1 = s
    · obtain ⟨c, hc, rfl⟩ := hex
      have happ : top.path ++ fold c.1 :: q = (top.concat [c.1]).path ++ q := by
        rw [(child_path g hc).2, append_assoc, singleton_append]
      rw [sum_map_of_unique (fun c : Segment × Str => fold c.1) hlists.distinct hc]
      · rw [happ]
        exact hN c hc q
      · intro b hb hne
        by_contra hbc
        apply hne
        apply hits_eq_zero
        intro k hk he
        have hk' := hpre b hb k hk
        rw [(child_path g hb).2, he, prefix_append_right_inj, cons_prefix_cons] at hk'
        exact hbc hk'.1
    · have hcontent : g.content (top.path ++ s :: q) = none := by
        have hchild : g.content (top.path ++ [s]) = none := by
          by_contra hsome
          obtain ⟨v, hv⟩ := Option.ne_none_iff_exists'.mp hsome
          obtain ⟨name, hname, hc⟩ := (hlists.mem s v).mpr hv
          exact hex ⟨_, hc, hname⟩
        have := g.content_closed _ q hchild
        rwa [append_assoc, singleton_append] at this
      rw [hcontent, if_neg (by simp)]
      apply hnone
      intro c hc hpre
      rw [prefix_append_right_inj, cons_prefix_cons] at hpre
      exact hex ⟨c, hc, hpre.1⟩

theorem recursiveiterator_succ (depth : Nat) (top : UniConfKey) :
    (gen.recursiveiterator (depth + 1) top g).map Prod.fst =
      (g.iterator top).flatMap fun c => top.concat [c.1] ::
        (gen.recursiveiterator depth (top.concat [c.1]) g).map Prod.fst := by
  rw [IUniConfGen.recursiveiterator, gen_iterator, flatMap_map, map_flatMap]
  rfl

theorem hits_descendants (f : UniConfKey → List UniConfKey) (N : List Segment → Nat)
    (hpre : ∀ c : UniConfKey, c.Plain → ∀ k ∈ f c, c.path <+: k.path)
    (hN : ∀ c : UniConfKey, c.Plain → ∀ q, hits (c.path ++ q) (f c) =
      if g.content (c.path ++ q) ≠ none then N q else 0) (depth : Nat) (top : UniConfKey)
    (hdepth : ∀ q, g.content (top.path ++ q) ≠ none → q.length ≤ depth) (q : List Segment) :
    hits (top.path ++ q) (((gen.recursiveiterator depth top g).map Prod.fst).flatMap f) =
        if g.content (top.path ++ q) ≠ none then (q.tails.tail.map N).sum else 0 := by
  induction depth generalizing top q with
  | zero =>
    have hzero : hits (top.path ++ q)
        (((gen.recursiveiterator 0 top g).map Prod.fst).flatMap f) = 0 := rfl
    rw [hzero]
    split
    · rename_i hq
      have hnil := length_eq_zero_iff.mp (Nat.le_zero.mp (hdepth q hq))
      rw [hnil]
      rfl
    · rfl
  | succ depth ih =>
    -- at each child `f` and then what is below it
    let f' : UniConfKey → List UniConfKey := fun c => f c ++
      ((gen.recursiveiterator depth c g).map Prod.fst).flatMap f
    have hchild : ∀ c ∈ g.iterator top, ∀ q,
        g.content ((top.concat [c.1]).path ++ q) ≠ none → q.length ≤ depth := by
      intro c hc q hq
      rw [(child_path g hc).2, append_assoc] at hq
      exact Nat.le_of_succ_le_succ (hdepth _ hq)
    have hbelow : ∀ (d : Nat) (c : UniConfKey), c.Plain →
        ∀ k ∈ ((gen.recursiveiterator d c g).map Prod.fst).flatMap f, c.path <+: k.path := by
      intro d c hc k hk
      obtain ⟨e, he, hk⟩ := mem_flatMap.mp hk
      obtain ⟨e', he', rfl⟩ := List.mem_map.mp he
      obtain ⟨⟨r, -, hr⟩, hplain, -⟩ := mem_recursiveiterator hc he'
      refine List.IsPrefix.trans ?_ (hpre _ hplain k hk)
      rw [hr, path_append]
      exact prefix_append _ _
    have hstep := hits_children g top f' (fun q => N q + (q.tails.tail.map N).sum)
      (by
        intro c hc k hk
        have hplain := (child_path g hc).1
        rcases mem_append.mp hk with hk | hk
        · exact hpre _ hplain k hk
        · exact hbelow depth _ hplain k hk)
      (by
        intro c hc q
        rw [hits_append, hN _ (child_path g hc).1, ih _ (hchild c hc)]
        split <;> rfl) q
    have hflat : ((gen.recursiveiterator (depth + 1) top g).map Prod.fst).flatMap f =
        (g.iterator top).flatMap fun c => f' (top.concat [c.1]) := by
      rw [recursiveiterator_succ, flatMap_assoc]
      rfl
    rw [hflat, hstep]
    cases q with
    | nil => simp
    | cons s q =>
      rw [tail_tails_cons, map_cons, sum_cons]

theorem mem_descendants {depth : Nat} {e : UniConfKey}
    (he : e ∈ (gen.recursiveiterator depth top g).map Prod.fst) :
    e.Plain ∧ top.path <+: e.path := by
  cases depth with
  | zero => cases he
  | succ depth =>
    rw [recursiveiterator_succ] at he
    obtain ⟨c, hc, he⟩ := mem_flatMap.mp he
    obtain ⟨hplain, hpath⟩ := child_path g hc
    rcases mem_cons.mp he with rfl | he
    · exact ⟨hplain, hpath ▸ prefix_append _ _⟩
    · obtain ⟨e', he', rfl⟩ := List.mem_map.mp he
      obtain ⟨⟨r, -, hr⟩, heplain, -⟩ := mem_recursiveiterator hplain he'
      refine ⟨heplain, ?_⟩
      rw [hr, path_append, hpath, append_assoc]
      exact prefix_append _ _

theorem yields_prefix {k : UniConfKey} (hk : k ∈ yields g n top pattern) : top.path <+: k.path := by
  have hself : ∀ {b : Bool} {key : UniConfKey}, k ∈ (if b then [key] else []) →
      key.path <+: k.path := by
    intro b key hk
    cases b with
    | false => cases hk
    | true => rw [mem_singleton.mp hk]
  induction n generalizing top pattern with
  | zero => cases hk
  | succ n ih =>
    simp only [yields] at hk
    split at hk
    · exact hself hk
    · split at hk
      · rcases mem_append.mp hk with hk | hk
        · exact hself hk
        · obtain ⟨e, he, hk⟩ := mem_flatMap.mp hk
          exact (mem_descendants g (mem_map_of_mem he)).2.trans (ih hk)
      · split at hk
        · obtain ⟨c, hc, hk⟩ := mem_flatMap.mp hk
          have hck := ih hk
          rw [(child_path g hc).2] at hck
          exact (prefix_append _ _).trans hck
        · have hcur : (top.concat (parts pattern).1).path <+: k.path := by
            split at hk
            · exact hself hk
            · exact ih hk
          rw [path_concatKey] at hcur
          exact (prefix_append _ _).trans hcur

instance (top : UniConfKey) (q : List Segment) : Decidable (Below g top q) :=
  inferInstanceAs (Decidable (if q = [] then _ else _))

theorem below_plain {c : UniConfKey} (hc : c.Plain) (q : List Segment) :
    Below g c q ↔ g.content (c.path ++ q) ≠ none := by
  unfold Below
  split
  · rename_i hq
    rw [hq, append_nil, exists_, get_of_plain _ hc, Option.isSome_iff_ne_none]
  · rfl

theorem not_same {lits : UniConfKey} {t : Segment}
    (hlits : ∀ s ∈ lits, wildSegment s = false) (ht : wildSegment t = true)
    (hsame : ∀ s, same [s] [t] = decide (s = t)) : same lits [t] = false := by
  cases lits with
  | nil => rfl
  | cons s lits =>
    cases lits with
    | nil =>
      rw [hsame]
      apply decide_eq_false
      rintro rfl
      rw [hlits s mem_cons_self] at ht
      cases ht
    | cons s' lits =>
      apply beq_false_of_ne
      intro e
      simpa using congrArg length e

theorem yields_lit {s : Segment} (h : Plain (s :: rest))
    (hs : wildSegment s = false) (n : Nat) (top : UniConfKey) :
    ∃ lits rest' : UniConfKey, s :: rest = lits ++ rest' ∧
      (∀ s ∈ lits, wildSegment s = false) ∧ lits ≠ [] ∧ yields g (n + 1) top (s :: rest) =
        if rest'.isempty then
          if g.exists_ (top.concat lits) then [top.concat lits] else []
        else yields g n (top.concat lits) rest' := by
  obtain ⟨lits, rest', hsplit, hlits, hne, hparts⟩ := parts_lit h hs
  refine ⟨lits, rest', hsplit, hlits, hne, ?_⟩
  have hempty : lits.isempty = false := by simpa [isempty] using hne
  have hmany : lits.same RECURSIVE_ANY = false :=
    not_same hlits rfl same_recursive_any
  have hone : lits.same ANY = false := not_same hlits rfl same_any
  rw [yields, hparts]
  dsimp only
  rw [hempty, hmany, hone]
  rfl

/-- A search for a pattern comes to each path that exists once for each way to match. -/
def Counts (n : Nat) (pattern : UniConfKey) : Prop :=
  ∀ (top : UniConfKey) (q : List Segment), hits (top.path ++ q) (yields g n top pattern) =
    if Below g top q then Wild.ways pattern.wilds q else 0

variable {g}

theorem Counts.of_plain (h : Counts g n pattern) {c : UniConfKey} (hc : c.Plain)
    (q : List Segment) : hits (c.path ++ q) (yields g n c pattern) =
      if g.content (c.path ++ q) ≠ none then ways pattern.wilds q else 0 :=
  (h c q).trans (if_congr (below_plain g hc q) rfl rfl)

theorem counts_nil (n : Nat) : Counts g (n + 1) [] := by
  intro top q
  show hits _ (if g.exists_ top then [top] else []) = _
  rw [hits_self]
  by_cases hq : q = []
  · simp [hq, Below, wilds, ways]
  · have hne : ¬ top.path = top.path ++ q := fun e => hq (self_eq_append_right.mp e)
    simp [hne, wilds, ways, hq]

theorem counts_any (hpattern : Plain ([42] :: rest)) (h : Counts g n rest) :
    Counts g (n + 1) ([42] :: rest) := by
  intro top q
  have hy : yields g (n + 1) top ([42] :: rest) =
      (g.iterator top).flatMap fun c => yields g n (top.concat [c.1]) rest := by
    rw [yields, parts_wild hpattern rfl]
    rfl
  have hwilds : wilds ([42] :: rest) = .one :: wilds rest := rfl
  have hstep := hits_children g top (fun c => yields g n c rest) (ways (wilds rest))
    (fun c _ k hk => yields_prefix g hk) (fun c hc => h.of_plain (child_path g hc).1) q
  rw [hy, hstep, hwilds]
  cases q with
  | nil => simp [ways]
  | cons t q => simp [Below, ways]

theorem counts_recursive_any (hpattern : Plain ([46, 46, 46] :: rest))
    (h : Counts g n rest) : Counts g (n + 1) ([46, 46, 46] :: rest) := by
  intro top q
  have hy : yields g (n + 1) top ([46, 46, 46] :: rest) =
      (if matches_ [] rest && g.exists_ top then [top] else []) ++
        ((gen.recursiveiterator g.depth top g).map Prod.fst).flatMap
          fun c => yields g n c rest := by
    rw [yields, parts_wild hpattern rfl, flatMap_map]
    rfl
  have hwilds : wilds ([46, 46, 46] :: rest) = .many :: wilds rest := rfl
  have hdepth : ∀ q, g.content (top.path ++ q) ≠ none → q.length ≤ g.depth := by
    intro q hq
    have hle := length_le_depth hq
    rw [length_append] at hle
    omega
  have hstep := hits_descendants g (fun c => yields g n c rest)
    (ways (wilds rest)) (fun c _ k hk => yields_prefix g hk)
    (fun c hc => h.of_plain hc) g.depth top hdepth q
  rw [hy, hits_append, hits_self, hstep, hwilds, ways_many_eq]
  simp only [self_eq_append_right, Bool.and_eq_true, empty_matches_iff (plain_cons.mp hpattern).2]
  by_cases hq : q = []
  · subst hq
    by_cases htop : g.exists_ top = true
    · simp [Below, htop]
    · simp [Below, htop]
  · simp [hq, Below]

theorem counts_lit {s : Segment} (hpattern : Plain (s :: rest))
    (hlit : wildSegment s = false) (hn : rest.length < n)
    (h : ∀ rest' : UniConfKey, rest'.Plain → rest'.length < n → Counts g n rest') :
    Counts g (n + 1) (s :: rest) := by
  intro top q
  obtain ⟨lits, rest', hsplit, hlits, hne, hy⟩ := yields_lit g hpattern hlit n top
  rw [hsplit] at hpattern
  obtain ⟨hlplain, hrplain⟩ := plain_append.mp hpattern
  obtain ⟨hcplain, hcpath⟩ := concat_plain top hlplain hne
  generalize top.concat lits = current at hcplain hcpath hy
  -- what is found at the end of the literal head
  have hend : ∀ r, hits (current.path ++ r) (yields g (n + 1) top (s :: rest)) =
      if g.content (current.path ++ r) ≠ none then ways rest'.wilds r else 0 := by
    intro r
    rw [hy]
    by_cases hr : rest' = []
    · subst hr
      have hempty : isempty ([] : UniConfKey) = true := rfl
      rw [hempty, if_pos rfl, hits_self, exists_, get_of_plain _ hcplain]
      by_cases hr : r = []
      · simp [hr, wilds, ways, Option.isSome_iff_ne_none]
      · simp [hr, wilds, ways]
    · have hempty : rest'.isempty = false := by simpa [isempty] using hr
      have hshort : rest'.length < n := by
        have hlen := congrArg length hsplit
        have hpos := length_pos_iff.mpr hne
        simp only [length_cons, length_append] at hlen
        omega
      rw [hempty, if_neg (by simp)]
      exact (h rest' hrplain hshort).of_plain hcplain r
  have hways : wilds (s :: rest) = lits.path.map lit ++ rest'.wilds := by
    rw [hsplit, wilds_append, wilds_lits hlplain hlits]
  rw [hways]
  by_cases hpre : lits.path <+: q
  · obtain ⟨r, rfl⟩ := hpre
    have hnil : lits.path ≠ [] := by
      rw [hlplain.path_eq]
      simpa using hne
    rw [ways_lits, ← append_assoc, ← hcpath, hend]
    refine if_congr ?_ rfl rfl
    rw [Below, if_neg (by simp [hnil]), hcpath, append_assoc]
  · rw [Wild.ways_lits_of_not_prefix _ hpre, ite_self]
    apply hits_eq_zero
    intro k hk he
    have hk' : current.path <+: k.path := by
      rw [hy] at hk
      split at hk
      · split at hk
        · rw [mem_singleton.mp hk]
        · cases hk
      · exact yields_prefix g hk
    rw [hcpath, he, prefix_append_right_inj] at hk'
    exact hpre hk'

theorem counts_of_lt (hpattern : pattern.Plain) (hn : pattern.length < n) : Counts g n pattern := by
  induction n generalizing pattern with
  | zero => exact absurd hn (Nat.not_lt_zero _)
  | succ n ih =>
    cases pattern with
    | nil => exact counts_nil n
    | cons s rest =>
      have hlen : rest.length < n := Nat.lt_of_succ_lt_succ hn
      have hrest := ih (plain_cons.mp hpattern).2 hlen
      by_cases hany : s = [42]
      · subst hany
        exact counts_any hpattern hrest
      by_cases hrec : s = [46, 46, 46]
      · subst hrec
        exact counts_recursive_any hpattern hrest
      have hlit : wildSegment s = false := by
        simp [wildSegment, hany, hrec]
      exact counts_lit hpattern hlit hlen fun rest' h h' => ih h h'

variable (g)

theorem exact_iff (top : UniConfKey) (hpattern : pattern.Plain) :
    Exact g top pattern ↔ ∀ q, Below g top q → Matches pattern.wilds q →
      ways pattern.wilds q = 1 := by
  have hhits : ∀ q, ((xiter g top pattern).map path).count (top.path ++ q) =
      if Below g top q then ways pattern.wilds q else 0 :=
    fun q => counts_of_lt hpattern (Nat.lt_succ_self _) top q
  have hpre : ∀ p ∈ (xiter g top pattern).map path, ∃ q, p = top.path ++ q := by
    intro p hp
    obtain ⟨k, hk, rfl⟩ := List.mem_map.mp hp
    obtain ⟨q, hq⟩ := yields_prefix g hk
    exact ⟨q, hq.symm⟩
  constructor
  · intro h q hbelow hmatch
    have hmem := (h.mem _).mpr ⟨q, rfl, hbelow, hmatch⟩
    have hone := count_eq_one_of_mem h.once hmem
    rwa [hhits, if_pos hbelow] at hone
  · intro h
    constructor
    · rw [nodup_iff_count_le_one]
      intro p
      by_cases hp : p ∈ (xiter g top pattern).map path
      · obtain ⟨q, rfl⟩ := hpre p hp
        rw [hhits]
        split
        · rename_i hbelow
          by_cases hways : ways pattern.wilds q = 0
          · omega
          · exact (h q hbelow (matches_of_ways hways)).le
        · exact Nat.zero_le _
      · rw [count_eq_zero_of_not_mem hp]
        exact Nat.zero_le _
    · intro p
      constructor
      · intro hp
        obtain ⟨q, rfl⟩ := hpre p hp
        have hpos := count_pos_iff.mpr hp
        rw [hhits] at hpos
        split at hpos
        · rename_i hbelow
          exact ⟨q, rfl, hbelow, matches_of_ways (by omega)⟩
        · omega
      · rintro ⟨q, rfl, hbelow, hmatch⟩
        apply count_pos_iff.mp
        rw [hhits, if_pos hbelow, h q hbelow hmatch]
        exact Nat.one_pos

end

theorem exists_content {p : List Segment} (hp : ∀ a ∈ p, a ≠ [] ∧ fold a = a) :
    ∃ g : UniTempGen, g.content p ≠ none := by
  have hplain : Plain p := fun h => (hp [] h).1 rfl
  have hpath : path p = p := by
    rw [hplain.path_eq]
    exact (map_congr_left fun a ha => (hp a ha).2).trans (map_id p)
  refine ⟨(empty.set p (some [])).1, ?_⟩
  rw [content_set, refSet, hplain.not_slash, hpath]
  simp [PathMap.assign]

/-- The iterator is right for a tree and a pattern if and only if each existing key that matches
does so in one way in which each `...` takes a segment, unless only `...` are left where the key
ends. So it is right for all trees if and only if the pattern has `...` in the last place only. -/
theorem xiter_exact_iff (pattern : {p : UniConfKey // p.Plain}) :
    (∀ g top, Exact g top pattern.1 ↔ ∀ q, Below g top q → Wild.Matches pattern.1.wilds q →
      Wild.ways pattern.1.wilds q = 1) ∧
      ((∀ g top, Exact g top pattern.1) ↔ Wild.many ∉ pattern.1.wilds.dropLast) := by
  obtain ⟨pattern, hpattern⟩ := pattern
  refine ⟨fun g top => exact_iff g top hpattern, ?_⟩
  constructor
  · intro h hmany
    obtain ⟨p, hnames, hmatch, hways⟩ := exists_ways_ne_one ([120] : Segment) hmany
    have hp : ∀ a ∈ p, a ≠ [] ∧ fold a = a := by
      intro a ha
      rcases hnames a ha with rfl | hlit
      · exact ⟨by simp, rfl⟩
      · obtain ⟨s, hs, hwild⟩ := List.mem_map.mp hlit
        have hsne : s ≠ [] := fun e => hpattern (e ▸ hs)
        unfold wild at hwild
        split_ifs at hwild
        obtain rfl := lit.inj hwild
        exact ⟨fun e => hsne (fold_eq_nil.mp e), fold_fold s⟩
    obtain ⟨g, hg⟩ := exists_content hp
    have hbelow : Below g [] p := (below_plain g plain_nil p).mpr hg
    exact hways ((exact_iff g [] hpattern).mp (h g []) p hbelow hmatch)
  · intro hlast g top
    rw [exact_iff g top hpattern]
    exact fun q _ hmatch => ways_of_last hlast hmatch

/-- `.../a` does not find `a` at the top, and `.../...` finds `a/b` twice. -/
theorem xiter_misses_and_repeats :
    let many : Segment := [46, 46, 46]
    let g := (empty.set [[97], [98]] (some [49])).1
    ¬ Exact g [] [many, [97]] ∧ ¬ Exact g [] [many, many] := by
  intro many g
  constructor
  · intro h
    have hmem := (h.mem [[97]]).mpr ⟨[[97]], rfl, by decide, [[97]], suffix_refl _, [], rfl, rfl⟩
    revert hmem
    decide
  · intro h
    have honce := h.once
    revert honce
    decide

end XIter

end WvStreams
