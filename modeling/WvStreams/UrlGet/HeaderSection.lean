import WvStreams.UrlGet.Response

/-!
# Reading the header section

What `getline` returns of a response, and what `frame` finds in its lines. The headers that frame
the body set two fields, each overwriting what another one has set: `Clear` is that this comes out
right.
-/

namespace WvStreams

open List

theorem IsText.notMem {l : Str} (h : IsText l) : 10 ∉ l ∧ 0 ∉ l :=
  ⟨fun hmem => (h 10 hmem).2.1 rfl, fun hmem => (h 0 hmem).1 rfl⟩

theorem IsText.append {l l' : Str} (h : IsText l) (h' : IsText l') : IsText (l ++ l') := by
  exact forall_mem_append.mpr ⟨h, h'⟩

theorem HeaderField.isText_line (h : HeaderField) : IsText h.line := by
  intro c hc
  rcases mem_append.mp hc with hname | hvalue
  · obtain ⟨hspace, hzero, -⟩ := h.name_ok c hname
    refine ⟨hzero, ?_, ?_⟩ <;>
    · rintro rfl
      exact absurd hspace (by decide)
  · rcases mem_cons.mp hvalue with rfl | hvalue
    · decide
    rcases mem_cons.mp hvalue with rfl | hvalue
    · decide
    · exact h.value_ok c hvalue

namespace HeaderField

variable {h : HeaderField}

theorem trimString_line (h : HeaderField) :
    trimString h.line = h.name ++ 58 :: trimEnd (32 :: h.value) := by
  have hline : h.line = (h.name ++ [58]) ++ 32 :: h.value := by
    rw [line, append_assoc]
    rfl
  rw [hline, trimString_append (by simp) ⟨?_, ?_⟩, append_assoc]
  · rfl
  · intro c hc
    obtain ⟨d, name, hname⟩ := exists_cons_of_ne_nil h.name_ne
    rw [hname] at hc
    obtain rfl : d = c := by simpa using hc
    exact (h.name_ok d (hname ▸ mem_cons_self)).1
  · intro c hc
    obtain rfl : 58 = c := by simpa using hc
    decide

theorem trimString_line_of_value (hne : h.value ≠ []) (hvalue : ∀ c ∈ h.value, isspace c = false) :
    trimString h.line = h.line := by
  have hlast : ∀ c ∈ (32 :: h.value).getLast?, isspace c = false := by
    intro c hc
    obtain ⟨d, value, heq⟩ := exists_cons_of_ne_nil hne
    rw [heq, getLast?_cons_cons, ← heq] at hc
    exact hvalue c (mem_of_getLast? hc)
  rw [trimString_line, trimEnd_eq_self hlast]
  rfl

end HeaderField

theorem tolower_eq_colon {c : Byte} (h : tolower c = 58) : c = 58 := by
  rw [tolower] at h
  split at h
  · rename_i hc
    have hle : 97 ≤ (c + 32).toNat := by
      have h1 := hc.1
      have h2 := hc.2
      rw [UInt8.le_iff_toNat_le] at h1 h2
      rw [UInt8.toNat_add]
      simp only [UInt8.reduceToNat] at *
      omega
    rw [h] at hle
    exact absurd hle (by decide)
  · exact h

theorem eq_of_colon {a b x y : Str} (ha : 58 ∉ a) (hb : 58 ∉ b)
    (h : a ++ 58 :: x = b ++ 58 :: y) : a = b := by
  have htake : ∀ {a x : Str}, 58 ∉ a → (a ++ 58 :: x).takeWhile (· ≠ 58) = a := by
    intro a x ha
    have hall : ∀ c ∈ a, decide (c ≠ 58) = true := by
      intro c hc
      rw [decide_eq_true_iff]
      rintro rfl
      exact ha hc
    rw [takeWhile_append_of_pos hall, takeWhile_cons_of_neg (by simp), append_nil]
  rw [← htake ha (x := x), h, htake hb]

theorem named_of_strncasecmp {h : HeaderField} {w : Str} {name : String} {n : Nat} {t : Str}
    (hname : 58 ∉ bytes name) (ht : (t.take n).map tolower = bytes name ++ [58, 32])
    (hcmp : strncasecmp (h.name ++ 58 :: w) t n = true) : h.Named name := by
  rw [strncasecmp, beq_iff_eq, ht] at hcmp
  have hprefix : bytes name ++ [58, 32] <+: (h.name ++ 58 :: w).map tolower := by
    rw [← hcmp]
    exact (List.take_prefix _ _).map _
  obtain ⟨rest, hrest⟩ := hprefix
  rw [map_append, map_cons, append_assoc] at hrest
  refine (eq_of_colon hname ?_ hrest).symm
  intro hmem
  obtain ⟨c, hc, hcolon⟩ := mem_map.mp hmem
  exact (h.name_ok c hc).2.2 (tolower_eq_colon hcolon)

open HeaderField

theorem strncasecmp_line {h : HeaderField} {name : String} {t : Str} (hname : h.Named name)
    (ht : t.map tolower = bytes name ++ [58, 32]) :
    strncasecmp h.line t t.length = true ∧ h.line.drop t.length = h.value := by
  have hlength : t.length = (h.name ++ [58, 32]).length := by
    have h1 := congrArg length ht
    have h2 := congrArg length hname
    simp only [length_map, length_append] at h1 h2 ⊢
    omega
  have hline : h.line = (h.name ++ [58, 32]) ++ h.value := by
    rw [line, append_assoc]
    rfl
  rw [strncasecmp, hline, hlength, take_left' rfl, drop_left' rfl, ← hlength,
    take_length, ht, map_append, hname, beq_iff_eq]
  exact ⟨rfl, rfl⟩

namespace HeaderField

theorem frame_length {h : HeaderField} (hname : h.Named "content-length") {n : Nat}
    (hsay : h.Says n) (s : WvHttpStream) :
    s.frame (trimString h.line) =
      { s with bytes_remaining := size_of_int (atoi h.value), encoding := .ContentLength } := by
  have hcmp : strncasecmp h.line (bytes "Content-length: ") 16 = true ∧ h.line.drop 16 = h.value :=
    strncasecmp_line hname rfl
  rw [trimString_line_of_value hsay.1 fun c hc =>
      isspace_of_isxdigit (isxdigit_of_isdigit (hsay.2.1 c hc)),
    WvHttpStream.frame, if_pos hcmp.1, hcmp.2]

theorem frame_chunked {h : HeaderField} (hname : h.Named "transfer-encoding")
    (hvalue : h.value = bytes "chunked") (s : WvHttpStream) :
    s.frame (trimString h.line) = { s with encoding := .Chunked } := by
  have hcmp : strncasecmp h.line (bytes "Transfer-Encoding: ") 19 = true ∧
      h.line.drop 19 = h.value := strncasecmp_line hname rfl
  have hother : ¬ strncasecmp h.line (bytes "Content-length: ") 16 = true := by
    intro hlength
    have hnamed : h.Named "content-length" :=
      named_of_strncasecmp (by decide) rfl hlength
    exact absurd (hname.symm.trans hnamed) (by decide)
  have hfind : strstr (h.line.drop 19) (bytes "chunked") = true := by
    rw [hcmp.2, hvalue]
    rfl
  rw [trimString_line_of_value, WvHttpStream.frame, if_neg hother, if_pos]
  · rw [Bool.and_eq_true]
    exact ⟨hcmp.1, hfind⟩
  · rw [hvalue]
    decide
  · rw [hvalue]
    decide

theorem frame_other {h : HeaderField} (hname : ¬ h.Named "content-length") (s : WvHttpStream) :
    ∃ encoding expect_keep_alive,
      s.frame (trimString h.line) = { s with encoding, expect_keep_alive } ∧
      (encoding = s.encoding ∨ h.Named "transfer-encoding" ∧ encoding = .Chunked) := by
  rw [trimString_line, WvHttpStream.frame, if_neg]
  · split
    · rename_i hchunked
      rw [Bool.and_eq_true] at hchunked
      have hnamed : h.Named "transfer-encoding" :=
        named_of_strncasecmp (by decide) rfl hchunked.1
      exact ⟨.Chunked, s.expect_keep_alive, rfl, .inr ⟨hnamed, rfl⟩⟩
    split
    · exact ⟨s.encoding, true, rfl, .inl rfl⟩
    split
    · exact ⟨s.encoding, false, rfl, .inl rfl⟩
    · exact ⟨s.encoding, s.expect_keep_alive, rfl, .inl rfl⟩
  · intro hlength
    exact hname (named_of_strncasecmp (by decide) rfl hlength)

end HeaderField

namespace WvHttpStream

theorem getline_line {l : Str} (h : IsText l) (rest : Str) :
    getline (l ++ crlf ++ rest) = some (l ++ [13], rest) := by
  have hall : ∀ c ∈ l ++ [13], c ≠ 10 ∧ c ≠ 0 := by
    intro c hc
    rcases mem_append.mp hc with hin | hin
    · exact ⟨(h c hin).2.1, (h c hin).1⟩
    · rw [mem_singleton.mp hin]
      decide
  have hline : l ++ crlf ++ rest = (l ++ [13]) ++ 10 :: rest := by
    simp [crlf]
  have htake : ((l ++ [13]) ++ 10 :: rest).takeWhile (· ≠ 10) = l ++ [13] := by
    rw [takeWhile_append_of_pos (by simpa using fun c hc => (hall c (by simpa using hc)).1),
      takeWhile_cons_of_neg (by simp), append_nil]
  have hdrop : ((l ++ [13]) ++ 10 :: rest).dropWhile (· ≠ 10) = 10 :: rest := by
    rw [dropWhile_append_of_pos (by simpa using fun c hc => (hall c (by simpa using hc)).1),
      dropWhile_cons_of_neg (by simp)]
  rw [getline, if_pos (by simp [crlf]), hline, htake, hdrop, takeWhile_eq_self_iff.mpr]
  · rfl
  · simpa using fun c hc => (hall c (by simpa using hc)).2

theorem with_line_cases (f : Str → WvHttpStream → WvHttpStream) {s : WvHttpStream}
    {l rest later : Str} (hl : IsText l) (h : s.inbuf ++ later = l ++ crlf ++ rest) :
    (with_line f s = s ∧ later ≠ []) ∨
      ∃ inbuf, with_line f s = f (trimString l) { s with inbuf } ∧ inbuf ++ later = rest ∧
        inbuf.length + 2 = s.inbuf.length - l.length := by
  have hread : ∀ inbuf, s.inbuf = l ++ crlf ++ inbuf → inbuf ++ later = rest →
      ∃ inbuf, with_line f s = f (trimString l) { s with inbuf } ∧ inbuf ++ later = rest ∧
        inbuf.length + 2 = s.inbuf.length - l.length := by
    intro inbuf hinbuf hrest
    refine ⟨inbuf, ?_, hrest, ?_⟩
    · rw [with_line, hinbuf, getline_line hl]
      dsimp only
      rw [trimString_cr]
    · rw [hinbuf]
      simp only [crlf, length_append, length_cons, length_nil]
      omega
  rcases append_eq_append_iff.mp h with ⟨a, hpart, hlater⟩ | ⟨a, hinbuf, hrest⟩
  · rcases eq_nil_or_concat a with rfl | ⟨a, c, rfl⟩
    · exact .inr (hread [] (by simpa using hpart.symm) hlater)
    · left
      have hinit : l ++ [13] = s.inbuf ++ a ∧ [10] = [c] := by
        refine append_inj' ?_ rfl
        simpa [crlf] using hpart
      have hnone : 10 ∉ s.inbuf := by
        intro hmem
        have hmem' : (10 : Byte) ∈ l ++ [13] := hinit.1 ▸ mem_append_left a hmem
        rcases mem_append.mp hmem' with hin | hin
        · exact hl.notMem.1 hin
        · exact absurd (mem_singleton.mp hin) (by decide)
      refine ⟨?_, ?_⟩
      · rw [with_line, getline, if_neg hnone]
      · rw [hlater]
        simp
  · exact .inr (hread a hinbuf hrest.symm)

end WvHttpStream

/-- A body that is framed by its length is not longer than an `int` can tell. Where it is framed in
chunks, a header that says so comes after all those that give a length, and these give none; and
the sizes of the chunks can be told. -/
def Response.Clear (r : Response) : Prop :=
  match r.framing with
  | .length data => data.length < 2 ^ 31
  | .chunked b =>
    (∃ front te back, r.headers = front ++ te :: back ∧ te.Named "transfer-encoding" ∧
      te.value = WvStreams.bytes "chunked" ∧ ∀ h ∈ back, ¬ h.Named "content-length") ∧
    (∀ h ∈ r.headers, h.Named "content-length" → size_of_int (atoi h.value) = 0) ∧
    ∀ c ∈ b.chunks, c.data.length < 2 ^ 64

/-- What the headers that are left will set, and what is set already. -/
inductive Coming (s : WvHttpStream) (left : List HeaderField) : Body → Prop
  | length {data : Str} (hsmall : data.length < 2 ^ 31)
      (hleft : ∀ h ∈ left, h.Named "content-length" → h.Says data.length)
      (hnone : ∀ h ∈ left, ¬ h.Named "transfer-encoding")
      (hset : (∃ h ∈ left, h.Named "content-length") ∨
        (s.encoding = .ContentLength ∧ s.bytes_remaining = data.length)) : Coming s left (.length data)
  | chunked {b : ChunkedBody} (hsizes : ∀ c ∈ b.chunks, c.data.length < 2 ^ 64)
      (hleft : ∀ h ∈ left, h.Named "content-length" →
        (∃ n, h.Says n) ∧ size_of_int (atoi h.value) = 0)
      (hzero : s.bytes_remaining = 0)
      (hset : (∃ front te back, left = front ++ te :: back ∧ te.Named "transfer-encoding" ∧
          te.value = bytes "chunked" ∧ ∀ h ∈ back, ¬ h.Named "content-length") ∨
        (s.encoding = .Chunked ∧ ∀ h ∈ left, ¬ h.Named "content-length")) :
      Coming s left (.chunked b)

theorem Response.Clear.coming {r : Response} (h : r.Clear) {s : WvHttpStream}
    (hzero : s.bytes_remaining = 0) : Coming s r.headers r.framing := by
  have hframed := r.framed
  rw [Clear] at h
  generalize r.framing = framing at h hframed
  cases framing with
  | length data =>
    obtain ⟨hnone, hsome, hsay⟩ := hframed
    exact .length h hsay hnone (.inl hsome)
  | chunked b =>
    obtain ⟨-, -, n, hsay⟩ := hframed
    obtain ⟨hset, hlengths, hsizes⟩ := h
    exact .chunked hsizes (fun h hmem hname => ⟨⟨n, hsay h hmem hname⟩, hlengths h hmem hname⟩) hzero
      (.inl hset)

namespace Coming

variable {s : WvHttpStream} {left : List HeaderField} {framing : Body}

theorem congr (h : Coming s left framing) {r : WvHttpStream} (hencoding : r.encoding = s.encoding)
    (hremaining : r.bytes_remaining = s.bytes_remaining) : Coming r left framing := by
  cases h with
  | length hsmall hleft hnone hset =>
    exact .length hsmall hleft hnone (by rwa [hencoding, hremaining])
  | chunked hsizes hleft hzero hset =>
    exact .chunked hsizes hleft (hremaining.trans hzero) (by rwa [hencoding])

theorem next {h : HeaderField} (hcoming : Coming s (h :: left) framing) :
    Coming (s.frame (trimString h.line)) left framing := by
  cases hcoming with
  | @length data hsmall hleft hnone hset =>
    have hleft' := fun h' hmem => hleft h' (mem_cons_of_mem h hmem)
    have hnone' := fun h' hmem => hnone h' (mem_cons_of_mem h hmem)
    refine .length hsmall hleft' hnone' ?_
    by_cases hname : h.Named "content-length"
    · have hsay := hleft h mem_cons_self hname
      have hvalue : size_of_int (atoi h.value) = data.length := by
        have hsmall' := hsmall
        rw [← hsay.2.2] at hsmall'
        rw [atoi_digits hsay.1 hsay.2.1 hsmall', size_of_int_natCast (by omega), hsay.2.2]
      rw [frame_length hname hsay]
      exact .inr ⟨rfl, hvalue⟩
    · obtain ⟨encoding, expect_keep_alive, hframe, hencoding⟩ := frame_other hname s
      have hsame := hencoding.resolve_right fun hte => hnone h mem_cons_self hte.1
      rw [hframe]
      refine hset.imp ?_ fun hdone => ⟨hsame.trans hdone.1, hdone.2⟩
      rintro ⟨h', hmem, hname'⟩
      rcases mem_cons.mp hmem with rfl | hmem
      · exact absurd hname' hname
      · exact ⟨h', hmem, hname'⟩
  | @chunked b hsizes hleft hzero hset =>
    have hleft' := fun h' hmem => hleft h' (mem_cons_of_mem h hmem)
    by_cases hname : h.Named "content-length"
    · obtain ⟨⟨n, hsay⟩, hnone⟩ := hleft h mem_cons_self hname
      rw [frame_length hname hsay]
      refine .chunked hsizes hleft' hnone (.inl ?_)
      rcases hset with ⟨front, te, back, heq, hte⟩ | ⟨-, hno⟩
      · cases front with
        | nil =>
          obtain ⟨rfl, rfl⟩ := cons_eq_cons.mp heq
          exact absurd (hname.symm.trans hte.1) (by decide)
        | cons h' front =>
          obtain ⟨-, rfl⟩ := cons_eq_cons.mp heq
          exact ⟨front, te, back, rfl, hte⟩
      · exact absurd hname (hno h mem_cons_self)
    · rcases hset with ⟨front, te, back, heq, hte⟩ | ⟨hchunked, hno⟩
      · cases front with
        | nil =>
          obtain ⟨rfl, rfl⟩ := cons_eq_cons.mp heq
          rw [frame_chunked hte.1 hte.2.1]
          exact .chunked hsizes hleft' hzero (.inr ⟨rfl, hte.2.2⟩)
        | cons h' front =>
          obtain ⟨-, rfl⟩ := cons_eq_cons.mp heq
          obtain ⟨encoding, expect_keep_alive, hframe, -⟩ := frame_other hname s
          rw [hframe]
          exact .chunked hsizes hleft' hzero (.inl ⟨front, te, back, rfl, hte⟩)
      · obtain ⟨encoding, expect_keep_alive, hframe, hencoding⟩ := frame_other hname s
        rw [hframe]
        refine .chunked hsizes hleft' hzero (.inr ⟨?_, fun h' hmem =>
          hno h' (mem_cons_of_mem h hmem)⟩)
        rcases hencoding with hsame | ⟨-, hset⟩
        · exact hsame.trans hchunked
        · exact hset

theorem encoding_ne (h : Coming s [] framing) : s.encoding ≠ .Unknown := by
  cases h with
  | length _ _ _ hset =>
    rcases hset with ⟨_, hmem, -⟩ | ⟨hencoding, -⟩
    · exact absurd hmem not_mem_nil
    · rw [hencoding]
      exact Encoding.noConfusion
  | chunked _ _ _ hset =>
    rcases hset with ⟨front, te, back, heq, -⟩ | ⟨hencoding, -⟩
    · exact absurd heq (by simp)
    · rw [hencoding]
      exact Encoding.noConfusion

end Coming

end WvStreams
