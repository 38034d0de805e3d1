import Mathlib.Algebra.Ring.Int.Defs
import Mathlib.Data.List.Nodup
import Mathlib.Logic.Function.Basic

/-!
# `WvIStreamList`

A list of streams calls back those that are ready. They are in a second list until then, which
refers to them; `unlink` takes a stream out of both lists, and so a stream that is ready is not
called back if a stream before it unlinks it.
-/

namespace WvStreams

open List

variable {σ : Type}

structure WvLink (σ : Type) where
  data : σ
  autofree : Bool

structure SelectRequest where
  readable : Bool
  writable : Bool
  isexception : Bool

structure SelectInfo where
  wants : SelectRequest
  msec_timeout : Int

/-- The list, with the reference counts and the states of all streams. -/
structure WvIStreamList (σ : Type) where
  list : List (WvLink σ)
  sure_thing : List (WvLink σ) := []
  refcount : σ → Int
  isok : σ → Bool
  auto_prune : Bool := true

namespace WvIStreamList

/-- What a callback may do to the list and to the streams. A stream can be unlinked from the list as
a `WvIStreamListBase` too, or with an iterator. -/
inductive Action (σ : Type) where
  | append (stream : σ) (autofree : Bool)
  | unlink (stream : σ)
  | base_unlink (stream : σ)
  | close (stream : σ)
  | addRef (stream : σ)
  | release (stream : σ)
  deriving DecidableEq

section Round

variable [DecidableEq σ]

def owned (links : List (WvLink σ)) (stream : σ) : Nat :=
  links.countP fun link => link.autofree ∧ link.data = stream

def release_all (links : List (WvLink σ)) (refcount : σ → Int) (stream : σ) : Int :=
  refcount stream - owned links stream

def addRef (stream : σ) (s : WvIStreamList σ) : WvIStreamList σ :=
  { s with refcount := Function.update s.refcount stream (s.refcount stream + 1) }

def release (stream : σ) (s : WvIStreamList σ) : WvIStreamList σ :=
  { s with refcount := Function.update s.refcount stream (s.refcount stream - 1) }

def base_unlink (stream : σ) (s : WvIStreamList σ) : WvIStreamList σ :=
  { s with
    list := s.list.filter (·.data ≠ stream)
    refcount := release_all (s.list.filter (·.data = stream)) s.refcount }

def unlink_sure (stream : σ) (s : WvIStreamList σ) : WvIStreamList σ :=
  { s with
    sure_thing := s.sure_thing.filter (·.data ≠ stream)
    refcount := release_all (s.sure_thing.filter (·.data = stream)) s.refcount }

def unlink (stream : σ) (s : WvIStreamList σ) : WvIStreamList σ :=
  (s.unlink_sure stream).base_unlink stream

def zap_sure (s : WvIStreamList σ) : WvIStreamList σ :=
  { s with sure_thing := [], refcount := release_all s.sure_thing s.refcount }

def pre_loop (pre : σ → SelectInfo → (σ → Bool) → SelectInfo × (σ → Bool)) (oldwant : SelectRequest) :
    List (WvLink σ) → SelectInfo → (σ → Bool) → Bool → SelectInfo × (σ → Bool) × Bool
  | [], si, isok, already_sure => (si, isok, already_sure)
  | link :: rest, si, isok, already_sure =>
    let (si, isok) := pre link.data { si with wants := oldwant } isok
    pre_loop pre oldwant rest si isok (already_sure || !isok link.data)

/-- `alarmleft` is what remains of the time to an alarm of the list, and negative if there is none. -/
def pre_select (alarmleft : Int) (pre : σ → SelectInfo → (σ → Bool) → SelectInfo × (σ → Bool))
    (si : SelectInfo) (s : WvIStreamList σ) : SelectInfo × WvIStreamList σ :=
  let s := s.zap_sure
  let (si', isok, already_sure) := pre_loop pre si.wants s.list si s.isok (alarmleft = 0)
  let si' := if alarmleft ≥ 0 ∧ (alarmleft < si'.msec_timeout ∨ si'.msec_timeout < 0) then
    { si' with msec_timeout := alarmleft } else si'
  let si' := { si' with wants := si.wants }
  (if already_sure then { si' with msec_timeout := 0 } else si', { s with isok })

/-- What is done with a stream that is ready, or is not; none if the assertion fails. -/
def sort_out (stream : σ) (ready : Bool) (s : WvIStreamList σ) : Option (WvIStreamList σ) :=
  if ready then
    let s := (s.unlink_sure stream).addRef stream
    some { s with sure_thing := s.sure_thing ++ [⟨stream, true⟩] }
  else if s.sure_thing.any (·.data = stream) then none
  else some s

/-- The loop of `post_select`, where the iterator is behind the links that are kept. -/
def post_loop (post : σ → SelectInfo → (σ → Bool) → Bool × SelectInfo × (σ → Bool))
    (oldwant : SelectRequest) : List (WvLink σ) → List (WvLink σ) → SelectInfo → Bool →
      WvIStreamList σ → Option (Bool × WvIStreamList σ)
  | _, [], _, already_sure, s => some (already_sure, s)
  | kept, link :: rest, si, already_sure, s =>
    let (ready, si, isok) := post link.data { si with wants := oldwant } s.isok
    (sort_out link.data ready { s with isok }).bind fun s =>
      if s.isok link.data then post_loop post oldwant (kept ++ [link]) rest si already_sure s
      else if s.auto_prune then
        post_loop post oldwant kept rest si true
          { s with list := kept ++ rest, refcount := release_all [link] s.refcount }
      else post_loop post oldwant (kept ++ [link]) rest si true s

def post_select (alarmleft : Int)
    (post : σ → SelectInfo → (σ → Bool) → Bool × SelectInfo × (σ → Bool)) (si : SelectInfo)
    (s : WvIStreamList σ) : Option (Bool × WvIStreamList σ) :=
  (post_loop post si.wants [] s.list si (alarmleft = 0) s).map fun (already_sure, s) =>
    (already_sure || !s.sure_thing.isEmpty, s)

def act (s : WvIStreamList σ) : Action σ → WvIStreamList σ
  | .append stream autofree => { s with list := s.list ++ [⟨stream, autofree⟩] }
  | .unlink stream => s.unlink stream
  | .base_unlink stream => s.base_unlink stream
  | .close stream => { s with isok := Function.update s.isok stream false }
  | .addRef stream => s.addRef stream
  | .release stream => s.release stream

/-- The loop of `execute`, with a log of the streams that have been called back and of what their
callbacks did; none if the loop takes more steps than `fuel`. -/
def execute_loop (callback : List σ → σ → List (Action σ)) :
    Nat → List (σ × List (Action σ)) → WvIStreamList σ →
      Option (List (σ × List (Action σ)) × WvIStreamList σ)
  | fuel, log, s =>
    match s.sure_thing with
    | [] => some (log, s)
    | link :: rest =>
      match fuel with
      | 0 => none
      | fuel + 1 =>
        let s := s.addRef link.data
        let s := { s with sure_thing := rest, refcount := release_all [link] s.refcount }
        let actions := callback (log.map Prod.fst) link.data
        let s := (actions.foldl act s).release link.data
        execute_loop callback fuel (log ++ [(link.data, actions)]) s

def execute (callback : List σ → σ → List (Action σ)) (s : WvIStreamList σ) :
    Option (List (σ × List (Action σ)) × WvIStreamList σ) :=
  (execute_loop callback s.sure_thing.length [] s).map fun (log, s) => (log, s.zap_sure)

/-! ## References -/

/-- The references to a stream that are not from the links of the list. -/
def others (s : WvIStreamList σ) (stream : σ) : Int :=
  s.refcount stream - owned s.list stream - owned s.sure_thing stream

/-- What a callback does to these: what it appends with `autofree` is the list's from then on. -/
def own (stream : σ) : Action σ → Int
  | .append data autofree => if autofree ∧ data = stream then -1 else 0
  | .addRef data => if data = stream then 1 else 0
  | .release data => if data = stream then -1 else 0
  | .unlink _ | .base_unlink _ | .close _ => 0

theorem owned_append (front back : List (WvLink σ)) (stream : σ) :
    owned (front ++ back) stream = owned front stream + owned back stream := countP_append

theorem owned_filter (links : List (WvLink σ)) (data stream : σ) : owned links stream =
    owned (links.filter (·.data ≠ data)) stream + owned (links.filter (·.data = data)) stream := by
  rw [owned, countP_eq_countP_filter_add links _ (·.data ≠ data)]
  simp [owned]

variable {s : WvIStreamList σ}

theorem others_unlink_sure (data stream : σ) : (s.unlink_sure data).others stream =
    s.others stream := by
  have hsplit := owned_filter s.sure_thing data stream
  simp only [others, unlink_sure, release_all]
  omega

theorem others_base_unlink (data stream : σ) : (s.base_unlink data).others stream =
    s.others stream := by
  have hsplit := owned_filter s.list data stream
  simp only [others, base_unlink, release_all]
  omega

theorem others_zap_sure (stream : σ) : s.zap_sure.others stream = s.others stream := by
  have hempty : owned ([] : List (WvLink σ)) stream = 0 := countP_nil
  simp only [others, zap_sure, release_all, hempty]
  omega

theorem others_addRef (data stream : σ) : (s.addRef data).others stream =
    s.others stream + if data = stream then 1 else 0 := by
  rw [others, others, addRef]
  dsimp only
  by_cases h : data = stream
  · subst h
    rw [Function.update_self, if_pos rfl]
    omega
  · rw [Function.update_of_ne (Ne.symm h), if_neg h]
    omega

theorem others_release (data stream : σ) : (s.release data).others stream =
    s.others stream + if data = stream then -1 else 0 := by
  rw [others, others, release]
  dsimp only
  by_cases h : data = stream
  · subst h
    rw [Function.update_self, if_pos rfl]
    omega
  · rw [Function.update_of_ne (Ne.symm h), if_neg h]
    omega

theorem owned_singleton (data : σ) (autofree : Bool) (stream : σ) :
    (owned [⟨data, autofree⟩] stream : Int) = if autofree ∧ data = stream then 1 else 0 := by
  rw [owned, countP_singleton]
  by_cases h : autofree ∧ data = stream
  · rw [if_pos h, if_pos (decide_eq_true h)]
    rfl
  · rw [if_neg h, if_neg (by simpa using h)]
    rfl

theorem others_act (action : Action σ) (stream : σ) :
    (s.act action).others stream = s.others stream + own stream action := by
  cases action with
  | append data autofree =>
    have hlink := owned_singleton data autofree stream
    simp only [act, others, own, owned_append]
    split at hlink <;> rename_i h
    · rw [if_pos h]
      omega
    · rw [if_neg h]
      omega
  | unlink data => rw [act, unlink, others_base_unlink, others_unlink_sure, own, Int.add_zero]
  | base_unlink data => rw [act, others_base_unlink, own, Int.add_zero]
  | close data => exact (Int.add_zero _).symm
  | addRef data => exact others_addRef data stream
  | release data => exact others_release data stream

theorem others_acts (actions : List (Action σ)) (s : WvIStreamList σ) (stream : σ) :
    (actions.foldl act s).others stream = s.others stream + (actions.map (own stream)).sum := by
  induction actions generalizing s with
  | nil => exact (Int.add_zero _).symm
  | cons action actions ih =>
    rw [foldl_cons, ih, others_act, map_cons, sum_cons, Int.add_assoc]

/-! ## `post_select` -/

/-- A link with what `post_select` of its stream returned, and whether the stream `isok` then. -/
structure Outcome (σ : Type) where
  link : WvLink σ
  ready : Bool
  isok : Bool

/-- What the streams' own `post_select`s say, one after the other. -/
def outcomes (post : σ → SelectInfo → (σ → Bool) → Bool × SelectInfo × (σ → Bool))
    (oldwant : SelectRequest) : List (WvLink σ) → SelectInfo → (σ → Bool) → List (Outcome σ)
  | [], _, _ => []
  | link :: rest, si, isok =>
    let (ready, si, isok) := post link.data { si with wants := oldwant } isok
    ⟨link, ready, isok link.data⟩ :: outcomes post oldwant rest si isok

def ready_links (l : List (Outcome σ)) : List (WvLink σ) :=
  (l.filter (·.ready)).map fun outcome => ⟨outcome.link.data, true⟩

def left_links (auto_prune : Bool) (l : List (Outcome σ)) : List (WvLink σ) :=
  (l.filter fun outcome => outcome.isok || !auto_prune).map Outcome.link

theorem sort_out_spec (data : σ) (ready : Bool) (hnew : ∀ link ∈ s.sure_thing, link.data ≠ data) :
    ∃ s', sort_out data ready s = some s' ∧
      s'.sure_thing = s.sure_thing ++ (if ready then [⟨data, true⟩] else []) ∧ s'.list = s.list ∧
      s'.isok = s.isok ∧ s'.auto_prune = s.auto_prune ∧ ∀ x, s'.others x = s.others x := by
  cases ready with
  | false =>
    refine ⟨s, ?_, (append_nil _).symm, rfl, rfl, rfl, fun _ => rfl⟩
    have hnone : s.sure_thing.any (·.data = data) = false :=
      any_eq_false.mpr fun link hlink => by simpa using hnew link hlink
    rw [sort_out, if_neg Bool.false_ne_true, hnone, if_neg Bool.false_ne_true]
  | true =>
    have hall : s.sure_thing.filter (·.data ≠ data) = s.sure_thing :=
      filter_eq_self.mpr fun link hlink => decide_eq_true (hnew link hlink)
    refine ⟨{ (s.unlink_sure data).addRef data with
      sure_thing := s.sure_thing.filter (·.data ≠ data) ++ [⟨data, true⟩] }, ?_, ?_, rfl, rfl, rfl,
      fun x => ?_⟩
    · rw [sort_out, if_pos rfl]
      rfl
    · rw [hall, if_pos rfl]
    · have hlink := owned_singleton data true x
      have hadd := others_addRef (s := s.unlink_sure data) data x
      have hsure : owned ((s.unlink_sure data).addRef data).sure_thing x =
        owned (s.sure_thing.filter (·.data ≠ data)) x := rfl
      rw [others_unlink_sure] at hadd
      simp only [others, owned_append] at hadd ⊢
      simp only [true_and] at hlink
      omega

omit [DecidableEq σ] in
theorem ready_links_cons (outcome : Outcome σ) (l : List (Outcome σ)) :
    ready_links (outcome :: l) =
      (if outcome.ready then [⟨outcome.link.data, true⟩] else []) ++ ready_links l := by
  rw [ready_links, filter_cons]
  split <;> rfl

omit [DecidableEq σ] in
theorem left_links_cons (auto_prune : Bool) (outcome : Outcome σ) (l : List (Outcome σ)) :
    left_links auto_prune (outcome :: l) =
      (if outcome.isok || !auto_prune then [outcome.link] else []) ++ left_links auto_prune l := by
  rw [left_links, filter_cons]
  split <;> rfl

theorem post_loop_spec (post : σ → SelectInfo → (σ → Bool) → Bool × SelectInfo × (σ → Bool))
    (oldwant : SelectRequest) (rest kept : List (WvLink σ)) (si : SelectInfo) (already_sure : Bool)
    (s : WvIStreamList σ) (hlist : s.list = kept ++ rest) (hnodup : (rest.map (·.data)).Nodup)
    (hnew : ∀ link ∈ s.sure_thing, ∀ link' ∈ rest, link.data ≠ link'.data) :
    ∃ sure s', post_loop post oldwant kept rest si already_sure s = some (sure, s') ∧
      s'.sure_thing = s.sure_thing ++ ready_links (outcomes post oldwant rest si s.isok) ∧
      s'.list = kept ++ left_links s.auto_prune (outcomes post oldwant rest si s.isok) ∧
      ∀ x, s'.others x = s.others x := by
  induction rest generalizing kept si already_sure s with
  | nil =>
    refine ⟨already_sure, s, rfl, (append_nil _).symm, hlist, fun _ => rfl⟩
  | cons link rest ih =>
    rw [map_cons, nodup_cons] at hnodup
    rcases hpost : post link.data { si with wants := oldwant } s.isok with ⟨ready, si', isok⟩
    obtain ⟨s₁, hsort, hsure₁, hlist₁, hisok₁, hprune₁, hothers₁⟩ :=
      sort_out_spec (s := { s with isok }) link.data ready fun l hl =>
        hnew l hl link mem_cons_self
    replace hisok₁ : s₁.isok = isok := hisok₁
    replace hsure₁ : s₁.sure_thing = s.sure_thing ++ if ready then [⟨link.data, true⟩] else [] := hsure₁
    have hnew₁ : ∀ l ∈ s₁.sure_thing, ∀ l' ∈ rest, l.data ≠ l'.data := by
      intro l hl l' hl' heq
      rw [hsure₁] at hl
      rcases mem_append.mp hl with hl | hl
      · exact hnew l hl l' (mem_cons_of_mem link hl') heq
      · split at hl
        · obtain rfl := mem_singleton.mp hl
          exact hnodup.1 (mem_map.mpr ⟨l', hl', heq.symm⟩)
        · exact absurd hl not_mem_nil
    have houtcomes : outcomes post oldwant (link :: rest) si s.isok =
        ⟨link, ready, isok link.data⟩ :: outcomes post oldwant rest si' isok := by
      rw [outcomes, hpost]
    have hsplit : s.list = kept ++ [link] ++ rest := by
      rw [hlist, append_assoc]
      rfl
    rw [houtcomes, ready_links_cons, left_links_cons, post_loop, hpost]
    dsimp only
    rw [hsort, Option.bind_some, hisok₁]
    cases hok : isok link.data with
    | true =>
      obtain ⟨sure, s', hloop, hsure, hleft, hothers⟩ :=
        ih (kept ++ [link]) si' already_sure s₁ (hlist₁.trans hsplit) hnodup.2 hnew₁
      refine ⟨sure, s', ?_, ?_, ?_, fun x => (hothers x).trans (hothers₁ x)⟩
      · rw [if_pos rfl, hloop]
      · rw [hsure, hsure₁, hisok₁, append_assoc]
      · rw [hleft, hisok₁, hprune₁, append_assoc]
        rfl
    | false =>
      rw [if_neg Bool.false_ne_true]
      cases hprune : s.auto_prune with
      | true =>
        obtain ⟨sure, s', hloop, hsure, hleft, hothers⟩ := ih kept si' true
          { s₁ with list := kept ++ rest, refcount := release_all [link] s₁.refcount } rfl hnodup.2
          hnew₁
        refine ⟨sure, s', ?_, ?_, ?_, fun x => (hothers x).trans ?_⟩
        · rw [hisok₁] at hloop
          rw [if_pos (hprune₁.trans hprune), hloop]
        · rw [hsure, hsure₁, hisok₁, append_assoc]
        · rw [hleft, hisok₁, hprune₁, hprune]
          rfl
        · have hothers' := hothers₁ x
          have hlist : owned s₁.list x = owned kept x + owned [link] x + owned rest x := by
            rw [hlist₁, hsplit, owned_append, owned_append]
          simp only [others, owned_append, release_all] at hothers' ⊢
          omega
      | false =>
        obtain ⟨sure, s', hloop, hsure, hleft, hothers⟩ :=
          ih (kept ++ [link]) si' true s₁ (hlist₁.trans hsplit) hnodup.2 hnew₁
        refine ⟨sure, s', ?_, ?_, ?_, fun x => (hothers x).trans (hothers₁ x)⟩
        · rw [if_neg (by rw [hprune₁, hprune]; exact Bool.false_ne_true), hloop]
        · rw [hsure, hsure₁, hisok₁, append_assoc]
        · rw [hleft, hisok₁, hprune₁, hprune, append_assoc]
          rfl

/-! ## `execute` -/

theorem sure_thing_act (action : Action σ) :
    (s.act action).sure_thing = s.sure_thing.filter fun link => action ≠ .unlink link.data := by
  have hall : ∀ {action : Action σ}, (∀ data, action ≠ .unlink data) →
      s.sure_thing.filter (fun link => action ≠ .unlink link.data) = s.sure_thing := fun h =>
    filter_eq_self.mpr fun link _ => decide_eq_true (h link.data)
  cases action with
  | unlink data =>
    refine filter_congr fun link _ => ?_
    simp [eq_comm]
  | append data autofree | base_unlink data | close data | addRef data | release data =>
    exact (hall fun _ h => by cases h).symm

theorem sure_thing_acts (actions : List (Action σ)) (s : WvIStreamList σ) :
    (actions.foldl act s).sure_thing =
      s.sure_thing.filter fun link => .unlink link.data ∉ actions := by
  induction actions generalizing s with
  | nil => exact (filter_eq_self.mpr fun link _ => by simp).symm
  | cons action actions ih =>
    rw [foldl_cons, ih, sure_thing_act, filter_filter]
    refine filter_congr fun link _ => ?_
    simp [eq_comm, Bool.and_comm]

/-- Streams are called back in their order and at most once, and it is exactly those that the
callbacks of streams before them have not unlinked. -/
structure Dispatched (ready : List σ) (log : List (σ × List (Action σ))) : Prop where
  order : (log.map Prod.fst).Sublist ready
  called : ∀ front stream back, ready = front ++ stream :: back →
    (stream ∈ log.map Prod.fst ↔ ∀ entry ∈ log, entry.1 ∈ front → .unlink stream ∉ entry.2)

theorem Dispatched.cons {stream : σ} {ready : List σ} (hnodup : (stream :: ready).Nodup)
    (actions : List (Action σ)) {log : List (σ × List (Action σ))}
    (h : Dispatched (ready.filter fun x => .unlink x ∉ actions) log) :
    Dispatched (stream :: ready) ((stream, actions) :: log) := by
  obtain ⟨hnew, hnodup⟩ := nodup_cons.mp hnodup
  have horder : (log.map Prod.fst).Sublist ready := h.order.trans filter_sublist
  refine ⟨horder.cons_cons stream, fun front x back heq => ?_⟩
  cases front with
  | nil =>
    obtain ⟨rfl, rfl⟩ := cons.inj heq
    exact iff_of_true mem_cons_self nofun
  | cons y front =>
    obtain ⟨rfl, rfl⟩ := cons.inj heq
    have hne : x ≠ stream := by
      rintro rfl
      exact hnew (mem_append_right front mem_cons_self)
    rw [map_cons, mem_cons, or_iff_right hne, forall_mem_cons]
    rw [iff_true_intro (mem_cons_self : stream ∈ stream :: front), true_imp_iff]
    by_cases hunlink : .unlink x ∈ actions
    · refine iff_of_false (fun hmem => ?_) fun h => h.1 hunlink
      exact of_decide_eq_true (mem_filter.mp (h.order.subset hmem)).2 hunlink
    · have hsplit : (front ++ x :: back).filter (fun x => .unlink x ∉ actions) =
          front.filter (fun x => .unlink x ∉ actions) ++
            x :: back.filter fun x => .unlink x ∉ actions := by
        rw [filter_append, filter_cons_of_pos (by simpa using hunlink)]
      rw [h.called _ x _ hsplit, iff_true_intro hunlink, true_and]
      refine forall₂_congr fun entry hentry => imp_congr_left ?_
      -- an entry of the log is a stream that has not been unlinked
      have hmem := h.order.subset (mem_map_of_mem hentry)
      obtain ⟨hmem, hleft⟩ := mem_filter.mp hmem
      have hne' : entry.1 ≠ stream := fun heq => hnew (heq ▸ hmem)
      rw [mem_filter, mem_cons, or_iff_right hne']
      exact ⟨fun h => h.1, fun h => ⟨h, hleft⟩⟩

theorem execute_loop_nil (callback : List σ → σ → List (Action σ)) (fuel : Nat)
    (log : List (σ × List (Action σ))) (hnil : s.sure_thing = []) :
    execute_loop callback fuel log s = some (log ++ [], s) := by
  rw [append_nil]
  cases fuel <;> rw [execute_loop, hnil]

omit [DecidableEq σ] in
theorem dispatched_nil : Dispatched ([] : List σ) [] := by
  refine ⟨nil_sublist _, fun front x back heq => ?_⟩
  cases front <;> cases heq

theorem execute_loop_spec (callback : List σ → σ → List (Action σ)) (fuel : Nat)
    (log : List (σ × List (Action σ))) (s : WvIStreamList σ) (hfuel : s.sure_thing.length ≤ fuel)
    (hnodup : (s.sure_thing.map (·.data)).Nodup) (hfree : ∀ link ∈ s.sure_thing, link.autofree) :
    ∃ rest s', execute_loop callback fuel log s = some (log ++ rest, s') ∧ s'.sure_thing = [] ∧
      Dispatched (s.sure_thing.map (·.data)) rest ∧
      ∀ x, s'.others x = s.others x + ((rest.flatMap Prod.snd).map (own x)).sum := by
  induction fuel generalizing log s with
  | zero =>
    have hnil : s.sure_thing = [] := length_eq_zero_iff.mp (Nat.le_zero.mp hfuel)
    refine ⟨[], s, execute_loop_nil callback 0 log hnil, hnil, ?_, fun x => (Int.add_zero _).symm⟩
    rw [hnil]
    exact dispatched_nil
  | succ fuel ih =>
    cases hsure : s.sure_thing with
    | nil =>
      exact ⟨[], s, execute_loop_nil callback (fuel + 1) log hsure, hsure, dispatched_nil,
        fun x => (Int.add_zero _).symm⟩
    | cons link rest =>
      rw [hsure, map_cons] at hnodup
      rw [hsure] at hfree
      rw [hsure, length_cons] at hfuel
      let s₁ : WvIStreamList σ := { s.addRef link.data with
        sure_thing := rest, refcount := release_all [link] (s.addRef link.data).refcount }
      let actions := callback (log.map Prod.fst) link.data
      have hsure₁ : ((actions.foldl act s₁).release link.data).sure_thing =
          rest.filter fun link => .unlink link.data ∉ actions := sure_thing_acts actions s₁
      have hmap : (rest.filter fun link => .unlink link.data ∉ actions).map (·.data) =
          (rest.map (·.data)).filter fun x => .unlink x ∉ actions := by
        rw [filter_map]
        rfl
      have hothers₁ : ∀ x, s₁.others x = s.others x + if link.data = x then 1 else 0 := by
        intro x
        have hcons := owned_append [link] rest x
        have hadd := others_addRef (s := s) link.data x
        have hlist : (s.addRef link.data).list = s.list := rfl
        have hlinks : (s.addRef link.data).sure_thing = link :: rest := hsure
        simp only [others, hlist, hlinks, hsure] at hadd
        simp only [others, s₁, release_all, hlist, hsure]
        rw [singleton_append] at hcons
        omega
      have hsub : (rest.filter fun link => .unlink link.data ∉ actions).Sublist rest :=
        filter_sublist
      obtain ⟨log', s', hloop, hend, hdispatched, hothers⟩ := ih (log ++ [(link.data, actions)])
        ((actions.foldl act s₁).release link.data)
        (by rw [hsure₁]; exact Nat.le_trans hsub.length_le (Nat.le_of_succ_le_succ hfuel))
        (by rw [hsure₁]; exact (nodup_cons.mp hnodup).2.sublist (hsub.map _))
        (by rw [hsure₁]; exact fun l hl => hfree l (mem_cons_of_mem link (hsub.subset hl)))
      refine ⟨(link.data, actions) :: log', s', ?_, hend, ?_, fun x => ?_⟩
      · rw [execute_loop, hsure]
        rw [append_assoc] at hloop
        exact hloop
      · rw [hsure₁, hmap] at hdispatched
        exact hdispatched.cons hnodup actions
      · rw [hothers x, others_release, others_acts, hothers₁ x, flatMap_cons, map_append,
          sum_append]
        dsimp only
        split <;> omega

/-! ## Rounds -/

/-- The list of the streams that are ready, in the order of the list. -/
def ready (l : List (Outcome σ)) : List σ := (l.filter (·.ready)).map (·.link.data)

omit [DecidableEq σ] in
theorem ready_eq (l : List (Outcome σ)) : (ready_links l).map (·.data) = ready l := by
  rw [ready_links, map_map]
  rfl

omit [DecidableEq σ] in
theorem outcomes_links (post : σ → SelectInfo → (σ → Bool) → Bool × SelectInfo × (σ → Bool))
    (oldwant : SelectRequest) (links : List (WvLink σ)) (si : SelectInfo) (isok : σ → Bool) :
    (outcomes post oldwant links si isok).map Outcome.link = links := by
  induction links generalizing si isok with
  | nil => rfl
  | cons link links ih =>
    rw [outcomes, map_cons, ih]

/-- In every round, whatever the streams do: `post_select` unlinks the streams that are not usable
any more if `auto_prune` is set, and no others; the streams that are ready are called back once, in
order, but for those that one of them unlinks before; and no references but the links' and those of
the callbacks come or go. -/
theorem dispatches_once (s : WvIStreamList σ) (hnodup : (s.list.map (·.data)).Nodup)
    (alarmleft alarmleft' : Int) (si si' : SelectInfo)
    (pre : σ → SelectInfo → (σ → Bool) → SelectInfo × (σ → Bool))
    (post : σ → SelectInfo → (σ → Bool) → Bool × SelectInfo × (σ → Bool))
    (callback : List σ → σ → List (Action σ)) :
    let start := (pre_select alarmleft pre si s).2
    let said := outcomes post si'.wants s.list si' start.isok
    ∃ sure s₁ log s', post_select alarmleft' post si' start = some (sure, s₁) ∧
      s₁.list = left_links s.auto_prune said ∧ execute callback s₁ = some (log, s') ∧
      s'.sure_thing = [] ∧ Dispatched (ready said) log ∧
      ∀ x, s'.others x = s.others x + ((log.flatMap Prod.snd).map (own x)).sum := by
  intro start said
  have hothers : ∀ x, start.others x = s.others x := others_zap_sure
  obtain ⟨sure, s₁, hloop, hsure, hleft, hothers₁⟩ := post_loop_spec post si'.wants s.list [] si'
    (alarmleft' = 0) start rfl hnodup nofun
  replace hsure : s₁.sure_thing = ready_links said := hsure
  have hready : (s₁.sure_thing.map (·.data)).Nodup := by
    rw [hsure, ready_eq, ready]
    have hsub : ((said.filter (·.ready)).map (·.link.data)).Sublist (s.list.map (·.data)) := by
      rw [← outcomes_links post si'.wants s.list si' start.isok, map_map]
      exact filter_sublist.map _
    exact hnodup.sublist hsub
  have hfree : ∀ link ∈ s₁.sure_thing, link.autofree := by
    rw [hsure]
    intro link hlink
    obtain ⟨outcome, -, rfl⟩ := mem_map.mp hlink
    rfl
  obtain ⟨log, s', hexecute, hend, hdispatched, hown⟩ :=
    execute_loop_spec callback s₁.sure_thing.length [] s₁ (Nat.le_refl _) hready hfree
  refine ⟨sure || !s₁.sure_thing.isEmpty, s₁, log, s'.zap_sure, ?_, hleft, ?_, rfl, ?_, fun x => ?_⟩
  · have hlist : start.list = s.list := rfl
    rw [post_select, hlist, hloop, Option.map_some]
  · rw [execute, hexecute]
    rfl
  · rw [hsure, ready_eq] at hdispatched
    exact hdispatched
  · rw [others_zap_sure, hown, hothers₁, hothers]

end Round

/-- Both streams are ready, and the first one unlinks the second. -/
def two_streams : WvIStreamList Nat where
  list := [⟨0, true⟩, ⟨1, true⟩]
  refcount _ := 1
  isok _ := true

def any_select : SelectInfo := ⟨⟨true, false, false⟩, -1⟩

def all_ready (_ : Nat) (si : SelectInfo) (isok : Nat → Bool) : Bool × SelectInfo × (Nat → Bool) :=
  (true, si, isok)

def unlink_other (_ : List Nat) (stream : Nat) : List (Action Nat) :=
  if stream = 0 then [.unlink 1] else []

theorem dispatches_once_two : ∃ sure s₁ log s', post_select (-1) all_ready any_select
      (pre_select (-1) (fun _ si isok => (si, isok)) any_select two_streams).2 = some (sure, s₁) ∧
      s₁.list = two_streams.list ∧ execute unlink_other s₁ = some (log, s') ∧
      Dispatched [0, 1] log := by
  obtain ⟨sure, s₁, log, s', hpost, hlist, hexecute, -, hdispatched, -⟩ :=
    dispatches_once two_streams (by decide) (-1) (-1) any_select any_select
      (fun _ si isok => (si, isok)) all_ready unlink_other
  exact ⟨sure, s₁, log, s', hpost, hlist, hexecute, hdispatched⟩

/-- The second stream was ready, and is not called back. -/
theorem unlinked_not_called : ∃ s₁ log s', post_select (-1) all_ready any_select
      (pre_select (-1) (fun _ si isok => (si, isok)) any_select two_streams).2 = some (true, s₁) ∧
      ready (outcomes all_ready any_select.wants two_streams.list any_select two_streams.isok) =
        [0, 1] ∧ execute unlink_other s₁ = some (log, s') ∧ log.map Prod.fst = [0] :=
  ⟨_, _, _, rfl, rfl, rfl, rfl⟩

end WvIStreamList

end WvStreams
