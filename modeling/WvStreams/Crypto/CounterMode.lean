import WvStreams.Buffers.Edits
import WvStreams.Lib.CounterMode
import WvStreams.Strings.CNumber

/-!
# `WvCounterModeEncoder`

The encoder that is used to make the key stream writes it behind the content of the output buffer,
where the data is added to it. Only a buffer that is flushed gets a block of which a part is given
back. `encodes_xorStream` says that this is counter mode, whatever the chunks and the buffers are.
-/

namespace WvStreams

open Lib Lib.Ring Lib.ByteOrder Lib.CounterMode WvBufStore.Kind List Option LinkedStore

/-- What `encode` of the key encoder does for a block in `counterbuf`, flushing: what becomes of the
output buffer, of whatever kind, and the value that is returned. -/
def KeyCrypt : Type := (k : WvBufStore.Kind) → Str → k.Store → Option (k.Store × Bool)

structure WvCounterModeEncoder where
  keycrypt : KeyCrypt
  counter : Str

namespace WvCounterModeEncoder

def countersize (e : WvCounterModeEncoder) : Nat := e.counter.length

/-- `++counter[i]`, and on to the next byte if it has become zero. -/
def increment : Str → Str
  | [] => []
  | b :: counter => if b + 1 = 0 then (b + 1) :: increment counter else (b + 1) :: counter

def incrcounter (e : WvCounterModeEncoder) : WvCounterModeEncoder :=
  { e with counter := increment e.counter }

variable {k l : WvBufStore.Kind}

/-- The key stream for the blocks that are full. There is no result for a counter of no bytes, with
which the loop does not end. -/
def keyLoop (e : WvCounterModeEncoder) (outbuf : k.Store) (len : Nat) :
    Option (WvCounterModeEncoder × k.Store × Nat × Bool) :=
  if _hlen : e.countersize ≤ len then
    (e.keycrypt k e.counter outbuf).bind fun (outbuf, success) =>
      if success then
        if _hzero : e.countersize = 0 then none
        else keyLoop e.incrcounter outbuf (len - e.countersize)
      else some (e, outbuf, len, false)
  else some (e, outbuf, len, true)
termination_by len

/-- The key stream for the last bytes. If there is none, what is given back is a difference of
`size_t`. -/
def keyEnd (e : WvCounterModeEncoder) (outbuf : k.Store) (offset avail len : Nat) :
    Option (WvCounterModeEncoder × k.Store × Nat × Bool) :=
  (e.keycrypt k e.counter outbuf).bind fun (outbuf, success) =>
    if success then
      (k.writer.unalloc outbuf (e.countersize - len)).map fun outbuf =>
        (e.incrcounter, outbuf, 0, true)
    else
      (k.writer.unalloc outbuf
        (size_of_int ((k.editor.used outbuf : Int) - offset - avail))).map fun outbuf =>
        (e, outbuf, len, false)

/-- `*(dataout++) ^= *(datain++)`, for `len` bytes. -/
def xorOnto (dataout datain : Str) (len : Nat) : Str :=
  List.zipWith (· ^^^ ·) (dataout.take len) (datain.take len) ++ dataout.drop len

/-- XOR in the data. The bytes at `dataout` are those that are there before, which are stored in the
place of themselves behind the first `len`. -/
def xorLoop (inbuf : l.Store) (outbuf : k.Store) (offset avail : Nat) :
    Option (l.Store × k.Store) :=
  if avail = 0 then some (inbuf, outbuf)
  else
    let run := k.editor.optpeekable outbuf offset
    (k.editor.peek outbuf offset run).bind fun (_, dataout) =>
    let len := min run (l.reader.optgettable inbuf)
    (l.reader.get inbuf len).bind fun (inbuf, datain) =>
    let len := min len avail
    (k.editor.overwrite outbuf offset (xorOnto dataout datain len)).bind fun outbuf =>
    if _hlen : 0 < len then xorLoop inbuf outbuf (offset + len) (avail - len)
    else none
termination_by avail

/-- Generate a key stream, behind the first `offset` bytes: the bytes `len` that have none are left
from `avail`. -/
def generate (e : WvCounterModeEncoder) (outbuf : k.Store) (offset avail : Nat) (flush : Bool) :
    Option (WvCounterModeEncoder × k.Store × Nat × Bool) :=
  (e.keyLoop outbuf avail).bind fun (e, outbuf, len, success) =>
    if flush && len != 0 && success then e.keyEnd outbuf offset avail len
    else some (e, outbuf, len, success)

def _encode (e : WvCounterModeEncoder) (inbuf : l.Store) (outbuf : k.Store) (flush : Bool) :
    Option (WvCounterModeEncoder × l.Store × k.Store × Bool) :=
  let avail := l.editor.used inbuf
  let offset := k.editor.used outbuf
  (e.generate outbuf offset avail flush).bind fun (e, outbuf, len, success) =>
  (xorLoop inbuf outbuf offset (avail - len)).map fun (inbuf, outbuf) =>
    (e, inbuf, outbuf, success)

/-- `WvEncoder::encode`, of an encoder that is okay and not finished. -/
def encode (e : WvCounterModeEncoder) (inbuf : l.Store) (outbuf : k.Store) (flush : Bool) :
    Option (WvCounterModeEncoder × l.Store × k.Store × Bool) :=
  if l.editor.used inbuf ≠ 0 ∨ flush then e._encode inbuf outbuf flush
  else some (e, inbuf, outbuf, false)

/-- The chunks are encoded one after the other, in whatever buffer each comes in, behind the bytes
`rest` that are left from the ones before. The last one is flushed. Each call comes to an end,
and in the end `post` holds of the encoder and of the output. -/
def Encodes (post : WvCounterModeEncoder → k.Store → Prop) :
    List Str → WvCounterModeEncoder → k.Store → Str → Prop
  | [], e, outbuf, _ => post e outbuf
  | chunk :: chunks, e, outbuf, rest =>
    ∀ (l : WvBufStore.Kind) (inbuf : l.Store), Valid inbuf → (view inbuf).content = rest ++ chunk →
      ∃ e' outbuf' success, ∃ inbuf' : l.Store,
        e.encode inbuf outbuf chunks.isEmpty = some (e', inbuf', outbuf', success) ∧
        Encodes post chunks e' outbuf' (view inbuf').content

/-- For every block the key encoder writes another one, if there is room for it. -/
structure Encrypts (keycrypt : KeyCrypt) (E : Str → Str) (size : Nat) : Prop where
  length : ∀ block, block.length = size → (E block).length = size
  encode : ∀ {k : WvBufStore.Kind} {s : k.Store} (block : Str) {n : Nat}, block.length = size →
    Valid s → k.editor.Writable s → Roomy k s (size + n) →
    ∃ s', keycrypt k block s = some (s', true) ∧ Valid s' ∧ Roomy k s' n ∧
      (view s').content = (view s).content ++ E block

/-! ## Counters -/

theorem increment_ofNat (size n : Nat) : increment (ofNat size n) = ofNat size (n + 1) := by
  induction size generalizing n with
  | zero => rfl
  | succ size ih =>
    have hnext : UInt8.ofNat n + 1 = UInt8.ofNat (n + 1) := (UInt8.ofNat_add n 1).symm
    have hvalue : (UInt8.ofNat (n + 1)).toNat = (n + 1) % 256 := UInt8.toNat_ofNat'
    rw [ofNat, ofNat, increment, hnext]
    by_cases hzero : UInt8.ofNat (n + 1) = 0
    · have hcarry : (n + 1) / 256 = n / 256 + 1 := by
        rw [hzero] at hvalue
        have hmod : 0 = (n + 1) % 256 := hvalue
        omega
      rw [if_pos hzero, ih, hcarry]
    · have hkept : (n + 1) / 256 = n / 256 := by
        have hmod : (n + 1) % 256 ≠ 0 := fun h => hzero (UInt8.toNat_inj.mp (hvalue.trans h))
        omega
      rw [if_neg hzero, hkept]

/-! ## The data -/

variable {outbuf : k.Store} {n : Nat} {keys : Str} {inbuf : l.Store}

theorem xorOnto_eq {dataout datain : Str} (hn : datain.length = n) :
    xorOnto dataout datain n =
      zipWith (· ^^^ ·) datain (dataout.take n) ++ dataout.drop n := by
  rw [xorOnto, ← hn, take_length, zipWith_comm_of_comm UInt8.xor_comm]

theorem length_xorOnto {dataout datain : Str} (hdatain : datain.length = n)
    (hn : n ≤ dataout.length) : (xorOnto dataout datain n).length = dataout.length := by
  rw [xorOnto_eq hdatain, length_append, length_zipWith, length_drop, length_take, hdatain]
  omega

theorem zipWith_take_drop (data keys : Str) (n : Nat) :
    zipWith (· ^^^ ·) data keys =
      zipWith (· ^^^ ·) (data.take n) (keys.take n) ++
        zipWith (· ^^^ ·) (data.drop n) (keys.drop n) := by
  rw [← take_zipWith, ← drop_zipWith, take_append_drop]

theorem blit_keys {old datain : Str} {run : Nat} (hrun : run ≤ keys.length) (hn : n ≤ run)
    (hdatain : datain.length = n) :
    blit (old ++ keys) old.length (xorOnto (keys.take run) datain n) =
      old ++ zipWith (· ^^^ ·) datain (keys.take n) ++ keys.drop n := by
  have htake : (keys.take run).take n = keys.take n := by
    rw [take_take, Nat.min_eq_left hn]
  have hlen : (xorOnto (keys.take run) datain n).length = run := by
    have htaken := length_take_of_le hrun
    rw [length_xorOnto hdatain (by omega), htaken]
  have hdrop : (keys.take run).drop n ++ keys.drop run = keys.drop n := by
    rw [← drop_append_of_le_length (by rw [length_take]; omega), take_append_drop]
  rw [blit, hlen, take_left, drop_length_add_append, xorOnto_eq hdatain, htake,
    append_assoc, append_assoc, hdrop, append_assoc]

theorem xorLoop_turn (hin : Valid inbuf) (hout : Valid outbuf) (hw : k.editor.Writable outbuf)
    {old : Str} (hkeys : (view outbuf).content = old ++ keys)
    (hdata : keys.length ≤ (view inbuf).content.length) (hpos : 0 < keys.length) :
    ∃ n inbuf' outbuf', 0 < n ∧ n ≤ keys.length ∧ xorLoop inbuf outbuf old.length keys.length =
        xorLoop inbuf' outbuf' (old.length + n) (keys.length - n) ∧
      Valid inbuf' ∧ (view inbuf').content = (view inbuf).content.drop n ∧
      Valid outbuf' ∧ (view outbuf').content =
        old ++ zipWith (· ^^^ ·) ((view inbuf).content.take n) (keys.take n) ++ keys.drop n ∧
      ∀ n, Roomy k outbuf n → Roomy k outbuf' n := by
  have hcontent : (view outbuf).content.length = old.length + keys.length := by
    rw [hkeys, length_append]
  have hview : k.editor.view outbuf = view outbuf := congrFun k.editor_view outbuf
  have hrange : k.editor.InRange outbuf old.length := by
    rw [WvBufStore.Editor.InRange, hview]
    omega
  obtain ⟨hrun, hend⟩ := k.editor_lawful.optpeekable hout.editor hrange
  obtain ⟨s', hpeek, -⟩ := k.editor_lawful.peek hout.editor hrange hrun (Nat.le_refl _)
  rw [hview] at hend hpeek
  rw [Queue.peek_natCast, hkeys, drop_left] at hpeek
  have hopt : 0 < l.reader.optgettable inbuf := by
    apply l.reader_lawful.optgettable hin
    exact length_pos_iff.mp (hpos.trans_le hdata)
  obtain ⟨run, hsame⟩ : ∃ run, run = k.editor.optpeekable outbuf old.length := ⟨_, rfl⟩
  rw [← hsame] at hrun hend hpeek
  obtain ⟨n, hn⟩ : ∃ n, n = min run (l.reader.optgettable inbuf) := ⟨_, rfl⟩
  have hle : run ≤ keys.length := by omega
  obtain ⟨inbuf', hget, hin', hrest, -⟩ :=
    l.reader_lawful.get hin (show n ≤ (view inbuf).content.length by omega)
  have htaken : ((view inbuf).content.take n).length = n := length_take_of_le (by omega)
  have hlen : (xorOnto (keys.take run) ((view inbuf).content.take n) n).length = run := by
    have hrunlen := length_take_of_le hle
    rw [length_xorOnto htaken (by omega), hrunlen]
  obtain ⟨outbuf', hover, hout', hwrite, hroomy⟩ := overwrite_valid hout hw
    (show old.length < (view outbuf).content.length by omega)
    (show 0 < (xorOnto (keys.take run) ((view inbuf).content.take n) n).length by omega)
    (by rw [hlen, hsame])
  refine ⟨n, inbuf', outbuf', by omega, by omega, ?_, hin', hrest, hout', ?_, hroomy⟩
  · have hall : min n keys.length = n := Nat.min_eq_left (by omega)
    rw [xorLoop, if_neg hpos.ne']
    dsimp only
    rw [← hsame, hpeek, bind_some]
    rw [← hn, hget, bind_some]
    rw [hall]
    show (k.editor.overwrite outbuf old.length
      (xorOnto (keys.take run) ((view inbuf).content.take n) n)).bind _ = _
    rw [hover, bind_some, dif_pos (by omega)]
  · rw [hwrite, Queue.write_natCast]
    show blit (view outbuf).content _ _ = _
    rw [hkeys, blit_keys hle (by omega) htaken]

theorem xorLoop_spec (hin : Valid inbuf) (hout : Valid outbuf) (hw : k.editor.Writable outbuf)
    {old : Str} (hkeys : (view outbuf).content = old ++ keys)
    (hdata : keys.length ≤ (view inbuf).content.length) :
    ∃ inbuf' outbuf', xorLoop inbuf outbuf old.length keys.length = some (inbuf', outbuf') ∧
      Valid inbuf' ∧ (view inbuf').content = (view inbuf).content.drop keys.length ∧
      Valid outbuf' ∧ (view outbuf').content =
        old ++ zipWith (· ^^^ ·) (view inbuf).content keys ∧
      ∀ n, Roomy k outbuf n → Roomy k outbuf' n := by
  induction hlength : keys.length using Nat.strong_induction_on
    generalizing inbuf outbuf old keys with
  | _ avail ih =>
    subst hlength
    by_cases hnil : keys = []
    · subst hnil
      refine ⟨inbuf, outbuf, ?_, hin, rfl, hout, ?_, fun n h => h⟩
      · rw [xorLoop]
        exact if_pos rfl
      · rw [hkeys, zipWith_nil_right]
    · have hpos : 0 < keys.length := length_pos_iff.mpr hnil
      obtain ⟨n, inbuf₁, outbuf₁, hn, hle, hturn, hin₁, hrest₁, hout₁, hcontent₁, hroomy₁⟩ :=
        xorLoop_turn hin hout hw hkeys hdata hpos
      have hxored : (zipWith (· ^^^ ·) ((view inbuf).content.take n)
          (keys.take n)).length = n := by
        rw [length_zipWith, length_take, length_take]
        omega
      obtain ⟨inbuf', outbuf', hloop, hin', hrest, hout', hcontent, hroomy⟩ :=
        ih (keys.length - n) (by omega) hin₁ hout₁ (writable hw outbuf₁) hcontent₁
          (by rw [hrest₁, length_drop, length_drop]; omega) length_drop
      rw [length_append, hxored] at hloop
      refine ⟨inbuf', outbuf', hturn.trans hloop, hin', ?_, hout', ?_,
        fun m hm => hroomy m (hroomy₁ m hm)⟩
      · rw [hrest, hrest₁, drop_drop]
        congr 1
        omega
      · rw [hcontent, hrest₁, append_assoc, ← zipWith_take_drop]

/-! ## The key stream -/

variable {keycrypt : KeyCrypt} {E : Str → Str} {size : Nat}

theorem keyLoop_spec (hE : Encrypts keycrypt E size) (hsize : 0 < size) {n count rest room : Nat}
    (hrest : rest < size) {outbuf : k.Store} (hout : Valid outbuf) (hw : k.editor.Writable outbuf)
    (hroom : Roomy k outbuf (count * size + room)) :
    ∃ outbuf', keyLoop ⟨keycrypt, ofNat size n⟩ outbuf (count * size + rest) =
        some (⟨keycrypt, ofNat size (n + count)⟩, outbuf', rest, true) ∧
      Valid outbuf' ∧ Roomy k outbuf' room ∧
      (view outbuf').content = (view outbuf).content ++ keyStream E size n count := by
  have hcountersize (n : Nat) : countersize ⟨keycrypt, ofNat size n⟩ = size := length_ofNat size n
  induction count generalizing n outbuf with
  | zero =>
    rw [Nat.zero_mul, Nat.zero_add] at hroom ⊢
    refine ⟨outbuf, ?_, hout, hroom, (append_nil _).symm⟩
    rw [keyLoop, dif_neg (by rw [hcountersize]; omega), Nat.add_zero]
  | succ count ih =>
    rw [Nat.succ_mul] at hroom ⊢
    obtain ⟨outbuf₁, hkey, hout₁, hroom₁, hcontent₁⟩ :=
      @hE.encode _ outbuf (ofNat size n) (count * size + room) (length_ofNat size n) hout hw
        (by convert hroom using 1; omega)
    obtain ⟨outbuf', hloop, hout', hroom', hcontent⟩ :=
      @ih (n + 1) outbuf₁ hout₁ (writable hw outbuf₁) hroom₁
    refine ⟨outbuf', ?_, hout', hroom', ?_⟩
    · have hincr : incrcounter ⟨keycrypt, ofNat size n⟩ = ⟨keycrypt, ofNat size (n + 1)⟩ :=
        congrArg (WvCounterModeEncoder.mk keycrypt) (increment_ofNat size n)
      have hless : count * size + size + rest - size = count * size + rest := by omega
      rw [keyLoop, dif_pos (by rw [hcountersize]; omega)]
      show (keycrypt k (ofNat size n) outbuf).bind _ = _
      rw [hkey, bind_some]
      dsimp only
      rw [if_pos rfl, dif_neg (by rw [hcountersize]; exact hsize.ne'), hincr, hcountersize, hless,
        hloop, Nat.add_right_comm, Nat.add_assoc]
    · rw [hcontent, hcontent₁, append_assoc]
      rfl

theorem keyEnd_spec (hE : Encrypts keycrypt E size) {len : Nat} (hlen : len < size)
    (hout : Valid outbuf) (hw : k.editor.Writable outbuf) (hroom : Roomy k outbuf size)
    (offset avail : Nat) :
    ∃ outbuf', keyEnd ⟨keycrypt, ofNat size n⟩ outbuf offset avail len =
        some (⟨keycrypt, ofNat size (n + 1)⟩, outbuf', 0, true) ∧ Valid outbuf' ∧
      (view outbuf').content = (view outbuf).content ++ (E (ofNat size n)).take len := by
  have hcountersize : countersize ⟨keycrypt, ofNat size n⟩ = size := length_ofNat size n
  have hincr : incrcounter ⟨keycrypt, ofNat size n⟩ = ⟨keycrypt, ofNat size (n + 1)⟩ :=
    congrArg (WvCounterModeEncoder.mk keycrypt) (increment_ofNat size n)
  obtain ⟨outbuf₁, hkey, hout₁, -, hcontent₁⟩ :=
    @hE.encode _ outbuf (ofNat size n) 0 (length_ofNat size n) hout hw hroom
  have hblock := hE.length (ofNat size n) (length_ofNat size n)
  have hlength : (view outbuf₁).content.length = (view outbuf).content.length + size := by
    rw [hcontent₁, length_append, hblock]
  obtain ⟨outbuf', hunalloc, hout', hcontent⟩ := unalloc_valid hout₁ (writable hw outbuf₁)
    (show size - len ≤ (view outbuf₁).content.length by omega)
  refine ⟨outbuf', ?_, hout', ?_⟩
  · rw [keyEnd]
    show (keycrypt k (ofNat size n) outbuf).bind _ = _
    rw [hkey, bind_some]
    dsimp only
    rw [if_pos rfl, hcountersize, hunalloc, map_some, hincr]
  · have hkept : (view outbuf).content.length + size - (size - len) =
        (view outbuf).content.length + len := by omega
    rw [hcontent, hlength, hkept, hcontent₁, take_length_add_append]

theorem generate_flush (hE : Encrypts keycrypt E size) (hsize : 0 < size) {n length : Nat}
    {outbuf : k.Store} (hout : Valid outbuf) (hw : k.editor.Writable outbuf)
    (hroom : Roomy k outbuf (blocks size length * size)) (offset : Nat) :
    ∃ outbuf', generate ⟨keycrypt, ofNat size n⟩ outbuf offset length true =
        some (⟨keycrypt, ofNat size (n + blocks size length)⟩, outbuf', 0, true) ∧
      Valid outbuf' ∧ (view outbuf').content =
        (view outbuf).content ++ (keyStream E size n (blocks size length)).take length := by
  obtain ⟨count, rest, rfl, hrest⟩ : ∃ count rest, length = count * size + rest ∧ rest < size :=
    ⟨length / size, length % size, (Nat.div_add_mod' length size).symm, Nat.mod_lt _ hsize⟩
  have hkeys := length_keyStream hE.length n count
  by_cases hzero : rest = 0
  · subst hzero
    rw [Nat.add_zero, blocks_mul hsize] at hroom ⊢
    obtain ⟨outbuf', hloop, hout', -, hcontent⟩ :=
      @keyLoop_spec k _ _ _ hE hsize n count 0 0 hsize outbuf hout hw hroom
    refine ⟨outbuf', ?_, hout', ?_⟩
    · rw [Nat.add_zero] at hloop
      rw [generate, hloop]
      rfl
    · rw [hcontent, take_of_length_le hkeys.le]
  · rw [blocks_short (Nat.pos_of_ne_zero hzero) hrest] at hroom ⊢
    rw [Nat.succ_mul] at hroom
    obtain ⟨outbuf₁, hloop, hout₁, hroom₁, hcontent₁⟩ :=
      keyLoop_spec hE hsize hrest hout hw hroom
    obtain ⟨outbuf', hend, hout', hcontent⟩ :=
      keyEnd_spec hE hrest hout₁ (writable hw outbuf₁) hroom₁ offset (count * size + rest)
    refine ⟨outbuf', ?_, hout', ?_⟩
    · have hsome : (true && rest != 0 && true) = true := by simpa using hzero
      rw [generate, hloop, bind_some]
      dsimp only
      rw [if_pos hsome]
      exact hend
    · rw [hcontent, hcontent₁, keyStream_succ, ← hkeys, take_length_add_append, append_assoc]

/-! ## Calls -/

theorem used_eq {s : k.Store} (hs : Valid s) : k.editor.used s = (view s).content.length := by
  rw [k.editor_lawful.used hs.editor, k.editor_view]

theorem encode_of_generate {e e' : WvCounterModeEncoder} (hin : Valid inbuf) {outbuf₁ : k.Store}
    (hout : Valid outbuf) (hw : k.editor.Writable outbuf) {flush : Bool} {len : Nat}
    (hgenerate : e.generate outbuf (view outbuf).content.length (view inbuf).content.length flush =
      some (e', outbuf₁, len, true)) (hout₁ : Valid outbuf₁)
    (hcontent₁ : (view outbuf₁).content = (view outbuf).content ++ keys)
    (hlen : keys.length + len = (view inbuf).content.length) :
    ∃ outbuf', ∃ inbuf' : l.Store, e._encode inbuf outbuf flush = some (e', inbuf', outbuf', true) ∧
      (view inbuf').content = (view inbuf).content.drop keys.length ∧ Valid outbuf' ∧
      (view outbuf').content =
        (view outbuf).content ++ zipWith (· ^^^ ·) (view inbuf).content keys ∧
      ∀ n, Roomy k outbuf₁ n → Roomy k outbuf' n := by
  obtain ⟨inbuf', outbuf', hloop, -, hrest, hout', hcontent, hroomy⟩ :=
    xorLoop_spec hin hout₁ (writable hw outbuf₁) hcontent₁ (by omega)
  refine ⟨outbuf', inbuf', ?_, hrest, hout', hcontent, hroomy⟩
  have hless : (view inbuf).content.length - len = keys.length := by omega
  rw [_encode, used_eq hin, used_eq hout]
  rw [hgenerate, bind_some]
  dsimp only
  rw [hless, hloop]
  rfl

theorem encode_nil (e : WvCounterModeEncoder) (hin : Valid inbuf)
    (hnil : (view inbuf).content = []) (outbuf : k.Store) :
    e.encode inbuf outbuf false = some (e, inbuf, outbuf, false) := by
  have hused : l.editor.used inbuf = 0 := by
    rw [used_eq hin, hnil, length_nil]
  exact if_neg (by simp [hused])

theorem encode_step (hE : Encrypts keycrypt E size) (hsize : 0 < size) {n count room : Nat}
    {front back : Str} (hfront : front.length = count * size) (hback : back.length < size)
    {inbuf : l.Store} (hin : Valid inbuf) (hdata : (view inbuf).content = front ++ back)
    {outbuf : k.Store} (hout : Valid outbuf) (hw : k.editor.Writable outbuf)
    (hroom : Roomy k outbuf (count * size + room)) :
    ∃ outbuf' success, ∃ inbuf' : l.Store, encode ⟨keycrypt, ofNat size n⟩ inbuf outbuf false =
        some (⟨keycrypt, ofNat size (n + count)⟩, inbuf', outbuf', success) ∧
      (view inbuf').content = back ∧ Valid outbuf' ∧ Roomy k outbuf' room ∧
      (view outbuf').content = (view outbuf).content ++ xorStream E size n front := by
  have hlength : (view inbuf).content.length = count * size + back.length := by
    rw [hdata, length_append, hfront]
  obtain ⟨outbuf₁, hloop, hout₁, hroom₁, hcontent₁⟩ :=
    @keyLoop_spec k _ _ _ hE hsize n count back.length room hback outbuf hout hw hroom
  have hkeys := length_keyStream hE.length n count
  have hgenerate : generate ⟨keycrypt, ofNat size n⟩ outbuf (view outbuf).content.length
      (view inbuf).content.length false =
        some (⟨keycrypt, ofNat size (n + count)⟩, outbuf₁, back.length, true) := by
    rw [generate, hlength, hloop]
    rfl
  obtain ⟨outbuf', inbuf', hcall, hrest, hout', hcontent, hroomy⟩ :=
    encode_of_generate hin hout hw hgenerate hout₁ hcontent₁ (by omega)
  rw [hkeys, ← hfront, hdata, drop_left] at hrest
  by_cases hnil : front ++ back = []
  · obtain ⟨rfl, rfl⟩ := append_eq_nil_iff.mp hnil
    obtain rfl : count = 0 := by
      rcases Nat.mul_eq_zero.mp hfront.symm with h | h
      · exact h
      · omega
    rw [Nat.zero_mul, Nat.zero_add] at hroom
    exact ⟨outbuf, false, inbuf, encode_nil _ hin hdata outbuf, hdata, hout, hroom,
      (append_nil _).symm⟩
  · refine ⟨outbuf', true, inbuf', ?_, hrest, hout', hroomy room hroom₁, ?_⟩
    · rw [encode, if_pos (Or.inl ?_), hcall]
      rw [used_eq hin, hdata]
      exact (length_pos_iff.mpr hnil).ne'
    · rw [hcontent, hdata]
      congr 1
      have hboth : zipWith (· ^^^ ·) (front ++ back) (keyStream E size n count ++ []) =
          zipWith (· ^^^ ·) front (keyStream E size n count) ++ zipWith (· ^^^ ·) back [] :=
        zipWith_append (hfront.trans hkeys.symm)
      rw [append_nil, zipWith_nil_right, append_nil] at hboth
      rw [xorStream, hfront, blocks_mul hsize, hboth]

theorem encode_flush (hE : Encrypts keycrypt E size) (hsize : 0 < size) {n : Nat}
    {inbuf : l.Store} (hin : Valid inbuf) {outbuf : k.Store} (hout : Valid outbuf)
    (hw : k.editor.Writable outbuf)
    (hroom : Roomy k outbuf (blocks size (view inbuf).content.length * size)) :
    ∃ outbuf' success, ∃ inbuf' : l.Store, encode ⟨keycrypt, ofNat size n⟩ inbuf outbuf true =
        some (⟨keycrypt, ofNat size (n + blocks size (view inbuf).content.length)⟩, inbuf', outbuf',
          success) ∧ (view outbuf').content =
        (view outbuf).content ++ xorStream E size n (view inbuf).content := by
  have hkeys := length_keyStream hE.length n (blocks size (view inbuf).content.length)
  have hle := le_blocks hsize (view inbuf).content.length
  obtain ⟨outbuf₁, hgenerate, hout₁, hcontent₁⟩ :=
    @generate_flush k _ _ _ hE hsize n _ outbuf hout hw hroom (view outbuf).content.length
  obtain ⟨outbuf', inbuf', hcall, -, -, hcontent, -⟩ :=
    encode_of_generate hin hout hw hgenerate hout₁ hcontent₁
      (by rw [length_take]; omega)
  refine ⟨outbuf', true, inbuf', (if_pos (Or.inr rfl)).trans hcall, ?_⟩
  rw [hcontent, xorStream_take]

/-! ## Chunks -/

theorem Encodes.mono {post post' : WvCounterModeEncoder → k.Store → Prop}
    (hpost : ∀ e outbuf, post e outbuf → post' e outbuf) {chunks : List Str}
    {e : WvCounterModeEncoder} {rest : Str} (h : Encodes post chunks e outbuf rest) :
    Encodes post' chunks e outbuf rest := by
  induction chunks generalizing e outbuf rest with
  | nil => exact hpost e outbuf h
  | cons chunk chunks ih =>
    intro l inbuf hin hdata
    obtain ⟨e', outbuf', success, inbuf', hcall, hmore⟩ := h l inbuf hin hdata
    exact ⟨e', outbuf', success, inbuf', hcall, ih hmore⟩

theorem encodes_from (hE : Encrypts keycrypt E size) (hsize : 0 < size) {n : Nat}
    {chunks : List Str} (hne : chunks ≠ []) {outbuf : k.Store} (hout : Valid outbuf)
    (hw : k.editor.Writable outbuf) {rest : Str}
    (hroom : Roomy k outbuf (blocks size (rest ++ chunks.flatten).length * size)) :
    Encodes (fun e outbuf' => (view outbuf').content =
          (view outbuf).content ++ xorStream E size n (rest ++ chunks.flatten) ∧
        e.counter = ofNat size (n + blocks size (rest ++ chunks.flatten).length))
      chunks ⟨keycrypt, ofNat size n⟩ outbuf rest := by
  induction chunks generalizing n outbuf rest with
  | nil => exact absurd rfl hne
  | cons chunk chunks ih =>
    intro l inbuf hin hdata
    rw [flatten_cons, ← append_assoc, ← hdata] at hroom ⊢
    by_cases hlast : chunks = []
    · subst hlast
      rw [flatten_nil, append_nil] at hroom ⊢
      obtain ⟨outbuf', success, inbuf', hcall, hcontent⟩ :=
        @encode_flush k l _ _ _ hE hsize n inbuf hin outbuf hout hw hroom
      exact ⟨_, outbuf', success, inbuf', hcall, hcontent, rfl⟩
    · obtain ⟨count, front, back, hsplit, hfront, hback⟩ : ∃ count front back,
          (view inbuf).content = front ++ back ∧ front.length = count * size ∧
            back.length < size := by
        have hdiv := Nat.div_add_mod' (view inbuf).content.length size
        have hmod := Nat.mod_lt (view inbuf).content.length hsize
        refine ⟨(view inbuf).content.length / size, _, _, (take_append_drop
          ((view inbuf).content.length / size * size) _).symm, ?_, ?_⟩
        · rw [length_take]
          omega
        · rw [length_drop]
          omega
      have hlength : blocks size ((view inbuf).content ++ chunks.flatten).length =
          count + blocks size (back ++ chunks.flatten).length := by
        rw [hsplit, append_assoc, length_append, hfront, blocks_add hsize]
      rw [hlength, Nat.add_mul] at hroom
      rw [hlength, hsplit, append_assoc, xorStream_append hE.length hsize n hfront]
      obtain ⟨outbuf', success, inbuf', hcall, hrest, hout', hroom', hcontent⟩ :=
        @encode_step k l _ _ _ hE hsize n count _ _ _ hfront hback inbuf hin hsplit outbuf hout hw
          hroom
      have hflush : chunks.isEmpty = false := by simpa using hlast
      rw [hflush]
      refine ⟨_, outbuf', success, inbuf', hcall, ?_⟩
      rw [hrest]
      refine Encodes.mono ?_ (@ih (n + count) hlast outbuf' hout' (writable hw outbuf') back hroom')
      rintro e outbuf'' ⟨hmore, hcounter⟩
      refine ⟨?_, ?_⟩
      · rw [hmore, hcontent, append_assoc]
      · rw [hcounter, Nat.add_assoc]

/-- The output is the data in counter mode, whatever the chunks, and a second encoder that starts
with the same counter gives the data back. -/
theorem encodes_xorStream (hE : Encrypts keycrypt E size) (hsize : 0 < size) {counter : Str}
    (hcounter : counter.length = size) {chunks : List Str} (hne : chunks ≠ []) {outbuf : k.Store}
    (hout : Valid outbuf) (hw : k.editor.Writable outbuf)
    (hroom : Roomy k outbuf (blocks size chunks.flatten.length * size)) :
    Encodes (fun e outbuf' => (view outbuf').content =
          (view outbuf).content ++ xorStream E size (value counter) chunks.flatten ∧
        e.counter.length = size ∧ value e.counter =
          (value counter + blocks size chunks.flatten.length) % 256 ^ size)
      chunks ⟨keycrypt, counter⟩ outbuf [] ∧ ∀ codes : List Str, codes ≠ [] →
      codes.flatten = xorStream E size (value counter) chunks.flatten →
      ∀ (l : WvBufStore.Kind) (outbuf : l.Store), Valid outbuf → l.editor.Writable outbuf →
        Roomy l outbuf (blocks size codes.flatten.length * size) → Encodes (fun _ outbuf' =>
            (view outbuf').content = (view outbuf).content ++ chunks.flatten)
          codes ⟨keycrypt, counter⟩ outbuf [] := by
  obtain ⟨n, hn⟩ : ∃ n, n = value counter := ⟨_, rfl⟩
  have hinit : counter = ofNat size n := by
    rw [hn, ← hcounter, ofNat_value]
  rw [← hn, hinit]
  constructor
  · refine Encodes.mono ?_ (encodes_from hE hsize hne hout hw hroom)
    rintro e outbuf' ⟨hcontent, hend⟩
    exact ⟨hcontent, by rw [hend, length_ofNat], by rw [hend, value_ofNat]; rfl⟩
  · intro codes hcodes hcode l outbuf₂ hout₂ hw₂ hroom₂
    refine Encodes.mono ?_ (encodes_from hE hsize hcodes hout₂ hw₂ hroom₂)
    rintro e outbuf' ⟨hcontent, -⟩
    rw [hcontent, nil_append, hcode, xorStream_twice hE.length hsize]

/-! ## A key encoder -/

def putKey (E : Str → Str) : KeyCrypt := fun _ block s =>
  (put s (E block)).map fun s => (s, true)

theorem putKey_encrypts (hE : ∀ block, block.length = size → (E block).length = size)
    (hsize : size ≤ UNLIMITED_FREE_SPACE) : Encrypts (putKey E) E size := by
  refine ⟨hE, fun {k s} block {n} hblock hs _ hroom => ?_⟩
  have hlength := hE block hblock
  obtain ⟨s', hput, hvalid, hleft, hcontent⟩ := put_valid hs (hlength.trans_le hsize)
    (by rwa [hlength])
  refine ⟨s', ?_, hvalid, hleft, hcontent⟩
  rw [putKey, hput]
  rfl

/-- A key encoder that adds one to each byte, a counter that wraps, and five bytes in three chunks
behind the six of two segments. The code is decrypted in one chunk. -/
theorem encodes_xorStream_segments :
    Encodes (fun e outbuf' => (view outbuf').content = (view (k := .linked) merged).content ++
          xorStream (List.map (· + 1)) 2 (value [255, 255]) [[10], [20, 30, 40], [50]].flatten ∧
        e.counter.length = 2 ∧ value e.counter = (value [255, 255] +
          blocks 2 ([[10], [20, 30, 40], [50]] : List Str).flatten.length) % 256 ^ 2)
      [[10], [20, 30, 40], [50]] ⟨putKey (List.map (· + 1)), [255, 255]⟩
      (k := .linked) merged [] ∧ Encodes (fun _ outbuf' => (view outbuf').content =
        (view (k := .linked) merged).content ++ [[10], [20, 30, 40], [50]].flatten)
      [xorStream (List.map (· + 1)) 2 (value [255, 255]) [[10], [20, 30, 40], [50]].flatten]
      ⟨putKey (List.map (· + 1)), [255, 255]⟩ (k := .linked) merged [] := by
  have hlength (block : Str) (h : block.length = 2) : (block.map (· + 1)).length = 2 := by
    rw [length_map, h]
  have hkey : Encrypts (putKey (map (· + 1))) (map (· + 1)) 2 :=
    putKey_encrypts hlength (by decide)
  have hall := encodes_xorStream hkey Nat.two_pos (rfl : ([255, 255] : Str).length = 2)
    (cons_ne_nil _ _ : ([[10], [20, 30, 40], [50]] : List Str) ≠ []) (k := .linked)
    reached_merged.inv trivial trivial
  exact ⟨hall.1, hall.2 _ (cons_ne_nil _ _) (append_nil _) .linked merged
    reached_merged.inv trivial trivial⟩

end WvCounterModeEncoder

end WvStreams
