import WvStreams.UrlGet.HttpStream

/-!
# HTTP/1.1 responses

A well-formed response with a body that is framed by its length or in chunks, and its bytes. Where
both headers are there, the body is in chunks.
-/

namespace WvStreams

/-- What may stand in a line. -/
def IsText (s : Str) : Prop := ∀ c ∈ s, c ≠ 0 ∧ c ≠ 10 ∧ c ≠ 13

instance (s : Str) : Decidable (IsText s) :=
  inferInstanceAs (Decidable (∀ c ∈ s, c ≠ 0 ∧ c ≠ 10 ∧ c ≠ 13))

def crlf : Str := [13, 10]

structure HeaderField where
  name : Str
  value : Str
  name_ne : name ≠ []
  name_ok : ∀ c ∈ name, isspace c = false ∧ c ≠ 0 ∧ c ≠ 58
  value_ok : IsText value

namespace HeaderField

def line (h : HeaderField) : Str := h.name ++ 58 :: 32 :: h.value

def Named (h : HeaderField) (name : String) : Prop := h.name.map tolower = bytes name

instance (h : HeaderField) (name : String) : Decidable (h.Named name) :=
  inferInstanceAs (Decidable (_ = _))

def Says (h : HeaderField) (n : Nat) : Prop :=
  h.value ≠ [] ∧ (∀ c ∈ h.value, isdigit c = true) ∧ number 10 h.value = n

instance (h : HeaderField) (n : Nat) : Decidable (h.Says n) := inferInstanceAs (Decidable (_ ∧ _))

end HeaderField

/-- `ext` is a chunk extension, or blanks. -/
structure Chunk where
  size : Str
  ext : Str
  data : Str
  size_ne : size ≠ []
  size_ok : ∀ c ∈ size, isxdigit c = true
  ext_ok : IsText ext
  ext_head : ∀ c ∈ ext.head?, c = 59 ∨ c = 32 ∨ c = 9
  data_ne : data ≠ []
  length_data : number 16 size = data.length

/-- The bytes behind a chunk are not counted by its size. -/
def Chunk.bytes (c : Chunk) : Str := c.size ++ c.ext ++ crlf ++ c.data ++ crlf

/-- A body in chunks, with the last chunk, which is empty, and the trailer. -/
structure ChunkedBody where
  chunks : List Chunk
  last : Str
  ext : Str
  trailer : List HeaderField
  last_ne : last ≠ []
  last_ok : ∀ c ∈ last, c = 48
  ext_ok : IsText ext
  ext_head : ∀ c ∈ ext.head?, c = 59 ∨ c = 32 ∨ c = 9

def lines (ls : List Str) : Str := ls.flatMap fun l => l ++ crlf

namespace ChunkedBody

def data (b : ChunkedBody) : Str := b.chunks.flatMap Chunk.data

def ending (b : ChunkedBody) : Str :=
  b.last ++ b.ext ++ crlf ++ lines (b.trailer.map HeaderField.line) ++ crlf

def bytes (b : ChunkedBody) : Str := b.chunks.flatMap Chunk.bytes ++ b.ending

end ChunkedBody

inductive Body where
  | length (data : Str)
  | chunked (b : ChunkedBody)

namespace Body

def data : Body → Str
  | length data => data
  | chunked b => b.data

def bytes : Body → Str
  | length data => data
  | chunked b => b.bytes

/-- The headers say how the body is framed. -/
def Framed (headers : List HeaderField) : Body → Prop
  | length data =>
    (∀ h ∈ headers, ¬ h.Named "transfer-encoding") ∧ (∃ h ∈ headers, h.Named "content-length") ∧
      ∀ h ∈ headers, h.Named "content-length" → h.Says data.length
  | chunked _ =>
    (∃ h ∈ headers, h.Named "transfer-encoding") ∧ (∀ h ∈ headers, h.Named "transfer-encoding" →
        h.value.map tolower = WvStreams.bytes "chunked") ∧
      ∃ n, ∀ h ∈ headers, h.Named "content-length" → h.Says n

end Body

structure Response where
  status : Str
  headers : List HeaderField
  framing : Body
  status_text : IsText status
  status_http : bytes "HTTP/1.1 " <+: status
  framed : framing.Framed headers

namespace Response

def body (r : Response) : Str := r.framing.data

def bytes (r : Response) : Str :=
  lines (r.status :: r.headers.map HeaderField.line) ++ crlf ++ r.framing.bytes

end Response

end WvStreams
