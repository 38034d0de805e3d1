import WvStreams.UniConf.TempGen

/-!
# Following announcements

A mirror map takes each announced value for the key of the announcement. If the announcements
carry the values of a map and speak of every key that is different there, the mirror becomes
that map (`tell_eq`). So it follows the changes of a `UniTempGen` (`tell_set`).
-/

namespace WvStreams

open Lib

def tell (path : List Segment) (value : WvString) (ds : List Delta) : WvString :=
  ds.foldl (fun v d => if d.key.path = path then d.value else v) value

def listen (m : PathMap Segment Str) (ds : List Delta) : PathMap Segment Str :=
  fun p => tell p (m p) ds

theorem tell_cons (path : List Segment) (value : WvString) (d : Delta) (ds : List Delta) :
    tell path value (d :: ds) = tell path (if d.key.path = path then d.value else value) ds := rfl

theorem listen_append (m : PathMap Segment Str) (ds es : List Delta) :
    listen m (ds ++ es) = listen (listen m ds) es := by
  funext p
  exact List.foldl_append

theorem tell_eq {t : PathMap Segment Str} {ds : List Delta} {path : List Segment} {value : WvString}
    (hds : ∀ d ∈ ds, d.key.path = path → d.value = t path)
    (h : value = t path ∨ ∃ d ∈ ds, d.key.path = path) : tell path value ds = t path := by
  induction ds generalizing value with
  | nil =>
    rcases h with h | ⟨d, hd, -⟩
    · exact h
    · cases hd
  | cons d ds ih =>
    obtain ⟨hd, hds⟩ := List.forall_mem_cons.mp hds
    rw [tell_cons]
    apply ih hds
    by_cases hp : d.key.path = path
    · left
      rw [if_pos hp, hd hp]
    · rw [if_neg hp]
      rcases h with h | ⟨e, he, hpath⟩
      · exact Or.inl h
      · rcases List.mem_cons.mp he with rfl | he
        · exact absurd hpath hp
        · exact Or.inr ⟨e, he, hpath⟩

theorem UniTempGen.tell_set (g : UniTempGen) (key : UniConfKey) (value : WvString)
    (path : List Segment) :
    tell path (g.content path) (g.set key value).2 = (g.set key value).1.content path := by
  have hsteps := steps_set g key value
  apply tell_eq
  · rintro d hd rfl
    exact (hsteps.value_of_mem (List.mem_map_of_mem hd)).1.symm
  · by_cases h : ∃ d ∈ (g.set key value).2, d.key.path = path
    · exact Or.inr h
    · left
      refine (hsteps.eq_of_not_mem ?_).symm
      intro n hn he
      obtain ⟨d, hd, rfl⟩ := List.mem_map.mp hn
      exact h ⟨d, hd, he⟩

end WvStreams
