import RubbishStore.Socket.HttpBody
import RubbishStore.Socket.HttpSegments

/- The format of a chunked body. What is written as chunks is read as their data, however it is cut
   (`feed_chunks`), and the strict parser takes nothing else for a body (`accepts_iff`). The request of
   `httpserver.c` keeps the data of one chunk (`body_kept_iff`). -/
namespace RubbishStore.Socket.HttpBody

/-- What `*= 16` and `+= unhex_val` make of digits. -/
def sizeFrom (v : Nat) (digits : Bytes) : Nat := digits.foldl (fun v ch => v * 16 + (unhex ch).getD 0) v

/-- The size of a chunk in hexadecimal digits, and what the line may say behind them. -/
structure Size where
  digits : Bytes
  extension : Bytes
  digits_ne : digits ≠ []
  hex : ∀ ch ∈ digits, (unhex ch).isSome
  fits : sizeFrom 0 digits < 2 ^ 64 - 16
  starts : ∀ ch ∈ extension.head?, ch = 59 ∨ ch = 32
  noCR : CR ∉ extension

namespace Size

def value (l : Size) : Nat := sizeFrom 0 l.digits

def text (l : Size) : Bytes := l.digits ++ l.extension

end Size

/-- A whole line, short enough for the parser. -/
structure Line extends Size where
  short : (digits ++ extension).length + 2 ≤ HTTP_MAX_HEADER_SIZE

def Line.bytes (l : Line) : Bytes := l.text ++ [CR, LF]

structure Chunk where
  line : Line
  data : Bytes
  length : line.value = data.length
  data_ne : data ≠ []

namespace Chunk

def bytes (c : Chunk) : Bytes := c.line.bytes ++ (c.data ++ [CR, LF])

/-- The callbacks of a call that gets all of the chunk. -/
def events (c : Chunk) : List Event :=
  [.notice (.chunk_header c.data.length), .body c.data, .notice .chunk_complete]

end Chunk

/-- Chunks, and the line of the last one, which has no data. -/
structure Body where
  chunks : List Chunk
  last : Line
  last_value : last.value = 0

namespace Body

def bytes (b : Body) : Bytes := b.chunks.flatMap Chunk.bytes ++ b.last.bytes

def events (b : Body) : List Event := b.chunks.flatMap Chunk.events ++ [.notice (.chunk_header 0)]

def data (b : Body) : Bytes := b.chunks.flatMap Chunk.data

end Body

/-- `2;a` and `ok`. -/
def okChunk : Chunk where
  line :=
    { digits := [50], extension := [59, 97], digits_ne := by simp, hex := by simp [unhex],
      fits := by simp [sizeFrom, unhex], starts := by simp, noCR := by simp [CR],
      short := by simp [HTTP_MAX_HEADER_SIZE] }
  data := [111, 107]
  length := by simp [Size.value, sizeFrom, unhex]
  data_ne := by simp

def okBody : Body where
  chunks := [okChunk]
  last :=
    { digits := [48], extension := [], digits_ne := by simp, hex := by simp [unhex],
      fits := by simp [sizeFrom, unhex], starts := by simp, noCR := by simp,
      short := by simp [HTTP_MAX_HEADER_SIZE] }
  last_value := by simp [Size.value, sizeFrom, unhex]

/-- Where `http_parser_execute` begins with a chunked body, and where it leaves it. -/
def atStart (content_length : Nat) : Parser := { state := .chunk_size_start, content_length := content_length }

def atTrailers : Parser := { state := .header_field_start }

section
variable {strict : Bool}

theorem le_sizeFrom (v : Nat) (digits : Bytes) : v ≤ sizeFrom v digits := by
  induction digits generalizing v with
  | nil => exact le_rfl
  | cons ch digits ih => exact (by omega : v ≤ v * 16 + (unhex ch).getD 0).trans (ih _)

/-- The bytes of a line are counted. -/
theorem count_header {s : State} {v n : Nat} (hs : s.parsingHeader) (hn : n < HTTP_MAX_HEADER_SIZE) :
    (Parser.mk s v n none).count = ⟨s, v, n + 1, none⟩ := by
  rw [Parser.count, if_pos hs]
  exact if_neg (Nat.not_lt.mpr hn)

/-- Behind the line nothing is counted. -/
theorem count_data {s : State} {v n : Nat} (hs : s.parsingHeader = false) : (Parser.mk s v n none).count = ⟨s, v, n, none⟩ :=
  if_neg (by simp [hs])

/-- A control byte that is counted and taken. -/
theorem loop_taken {s : State} {v n : Nat} {ch : UInt8} {data : Bytes} {q : Parser} {notices : List Notice}
    (hs : s.parsingHeader) (hn : n < HTTP_MAX_HEADER_SIZE)
    (hq : (Parser.mk s v (n + 1) none).control strict ch = (q, notices)) (herrno : q.http_errno = none) :
    loop strict ⟨s, v, n, none⟩ none (ch :: data) = (loop strict q none data).after (notices.map .notice) := by
  have hcontrols : s.Controls := by cases s <;> simp_all [State.Controls, State.parsingHeader]
  rw [loop_control (p := ⟨s, v, n, none⟩) hcontrols (.inl rfl), count_header hs hn, hq]
  simp [herrno]

@[simp] theorem after_nil (r : Result) : r.after [] = r := rfl

theorem unhex_ne_CR {ch : UInt8} (h : (unhex ch).isSome) : ch ≠ CR := by
  rintro rfl
  exact absurd h (by decide)

/-- The digits behind the first one. -/
theorem loop_digits {digits rest : Bytes} {v n : Nat} (hhex : ∀ ch ∈ digits, (unhex ch).isSome)
    (hfits : sizeFrom v digits < 2 ^ 64 - 16) (hn : n + digits.length < HTTP_MAX_HEADER_SIZE) :
    loop strict ⟨.chunk_size, v, n, none⟩ none (digits ++ rest) =
      loop strict ⟨.chunk_size, sizeFrom v digits, n + digits.length, none⟩ none rest := by
  induction digits generalizing v n with
  | nil => rfl
  | cons ch digits ih =>
    obtain ⟨unhex_val, hval⟩ := Option.isSome_iff_exists.mp (hhex ch List.mem_cons_self)
    have hCR : ch ≠ CR := unhex_ne_CR (hhex ch List.mem_cons_self)
    have hle : v * 16 + unhex_val ≤ sizeFrom v (ch :: digits) := by
      have hfrom := le_sizeFrom (v * 16 + unhex_val) digits
      simpa [sizeFrom, hval] using hfrom
    have hover : ¬(ULLONG_MAX - 16) / 16 < v := by
      simp only [ULLONG_MAX]
      omega
    have hq : (Parser.mk .chunk_size v (n + 1) none).control strict ch =
        (⟨.chunk_size, v * 16 + unhex_val, n + 1, none⟩, []) := by
      simp only [Parser.control, hCR, hval, hover, if_false]
    rw [List.length_cons] at hn
    rw [List.cons_append, loop_taken rfl (by omega) hq rfl]
    have hsize : sizeFrom v (ch :: digits) = sizeFrom (v * 16 + unhex_val) digits := by simp [sizeFrom, hval]
    rw [hsize] at hfits ⊢
    rw [List.map_nil, after_nil, ih (fun d hd => hhex d (List.mem_cons_of_mem _ hd)) hfits (by omega),
      List.length_cons, Nat.add_assoc, Nat.add_comm 1]

theorem loop_parameters {extension rest : Bytes} {v n : Nat} (hCR : CR ∉ extension)
    (hn : n + extension.length < HTTP_MAX_HEADER_SIZE) :
    loop strict ⟨.chunk_parameters, v, n, none⟩ none (extension ++ rest) =
      loop strict ⟨.chunk_parameters, v, n + extension.length, none⟩ none rest := by
  induction extension generalizing n with
  | nil => rfl
  | cons ch extension ih =>
    obtain ⟨hne, hCR⟩ := not_or.mp (fun h => hCR (List.mem_cons.mpr h))
    have hq : (Parser.mk .chunk_parameters v (n + 1) none).control strict ch =
        (⟨.chunk_parameters, v, n + 1, none⟩, []) := if_neg (Ne.symm hne)
    rw [List.length_cons] at hn
    rw [List.cons_append, loop_taken rfl (by omega) hq rfl, List.map_nil, after_nil, ih hCR (by omega),
      List.length_cons, Nat.add_assoc, Nat.add_comm 1]

/-- The end of the line, from the size or from what it says more. -/
theorem loop_line_end {s : State} {v n : Nat} {rest : Bytes} (hs : s = .chunk_size ∨ s = .chunk_parameters)
    (hn : n + 2 ≤ HTTP_MAX_HEADER_SIZE) :
    loop strict ⟨s, v, n, none⟩ none ([CR, LF] ++ rest) =
      (loop strict ⟨if v = 0 then .header_field_start else .chunk_data, v, 0, none⟩ none rest).after
        [.notice (.chunk_header v)] := by
  have hcr : (Parser.mk s v (n + 1) none).control strict CR = (⟨.chunk_size_almost_done, v, n + 1, none⟩, []) := by
    rcases hs with rfl | rfl <;> rfl
  have hlf : (Parser.mk .chunk_size_almost_done v (n + 2) none).control strict LF =
      (⟨if v = 0 then .header_field_start else .chunk_data, v, 0, none⟩, [.chunk_header v]) := by
    simp [Parser.control]
  have hheader : s.parsingHeader := by rcases hs with rfl | rfl <;> rfl
  rw [List.cons_append, loop_taken hheader (by omega) hcr rfl, List.map_nil, after_nil, List.cons_append,
    loop_taken rfl (by omega) hlf rfl]
  rfl

/-- The line of a chunk is its length. -/
theorem loop_line (l : Line) (v : Nat) (rest : Bytes) :
    loop strict (atStart v) none (l.bytes ++ rest) =
      (loop strict ⟨if l.value = 0 then .header_field_start else .chunk_data, l.value, 0, none⟩ none rest).after
        [.notice (.chunk_header l.value)] := by
  obtain ⟨value, hvalue⟩ : ∃ value, l.value = value := ⟨_, rfl⟩
  rw [hvalue]
  obtain ⟨⟨digits, extension, hne, hhex, hfits, hstarts, hnoCR⟩, hshort⟩ := l
  obtain ⟨ch, digits, rfl⟩ := List.exists_cons_of_ne_nil hne
  obtain ⟨unhex_val, hval⟩ := Option.isSome_iff_exists.mp (hhex ch List.mem_cons_self)
  have hfrom : sizeFrom 0 (ch :: digits) = sizeFrom unhex_val digits := by simp [sizeFrom, hval]
  have hdigits : sizeFrom unhex_val digits = value := hfrom.symm.trans hvalue
  rw [hfrom] at hfits
  have hq : (Parser.mk .chunk_size_start v 1 none).control strict ch = (⟨.chunk_size, unhex_val, 1, none⟩, []) := by
    simp only [Parser.control, hval]
  simp only [List.length_append, List.length_cons] at hshort
  simp only [Line.bytes, Size.text, atStart, List.append_assoc]
  rw [List.cons_append, loop_taken rfl (by decide) hq rfl, List.map_nil, after_nil,
    loop_digits (fun d hd => hhex d (List.mem_cons_of_mem _ hd)) hfits (by omega), hdigits]
  cases extension with
  | nil => exact loop_line_end (.inl rfl) (by simp only [List.length_nil] at hshort; omega)
  | cons first extension =>
    rw [List.length_cons] at hshort
    have hfirst : (Parser.mk .chunk_size value (1 + digits.length + 1) none).control strict first =
        (⟨.chunk_parameters, value, 1 + digits.length + 1, none⟩, []) := by
      rcases hstarts first rfl with rfl | rfl <;> rfl
    rw [List.cons_append, loop_taken rfl (by omega) hfirst rfl, List.map_nil, after_nil,
      loop_parameters (fun hmem => hnoCR (List.mem_cons_of_mem _ hmem)) (by omega)]
    exact loop_line_end (.inr rfl) (by omega)

/-- The data of a chunk is called back in one piece. -/
theorem loop_data {data rest : Bytes} (hne : data ≠ []) :
    loop strict ⟨.chunk_data, data.length, 0, none⟩ none (data ++ ([CR, LF] ++ rest)) =
      (loop strict (atStart 0) none rest).after [.body data, .notice .chunk_complete] := by
  obtain ⟨ch, tail, rfl⟩ := List.exists_cons_of_ne_nil hne
  have hk : (ch :: tail).length = min (ch :: tail).length ((tail ++ ([CR, LF] ++ rest)).length + 1) := by
    simp
  have hend : (Parser.mk .chunk_data (ch :: tail).length 0 none).read (ch :: tail).length .chunk_data_almost_done =
      ⟨.chunk_data_almost_done, 0, 0, none⟩ := by
    simp [Parser.read]
  have hcr : (Parser.mk .chunk_data_almost_done 0 0 none).control strict CR = (⟨.chunk_data_done, 0, 0, none⟩, []) := by
    simp [Parser.control]
  have hlf : (Parser.mk .chunk_data_done 0 0 none).control strict LF = (atStart 0, [.chunk_complete]) := by
    simp [Parser.control, atStart]
  rw [List.cons_append, loop_chunk_data rfl rfl hk, hend, ← List.cons_append, List.take_left, List.length_cons,
    Nat.add_sub_cancel, List.drop_left]
  rw [List.cons_append, loop_control (by simp [State.Controls]) (.inr (by simp)), count_data rfl, hcr, List.cons_append,
    loop_control (by simp [State.Controls]) (.inl rfl), count_data rfl, hlf]
  rfl

/-- The chunks are called back one after another, and their end is found. -/
theorem loop_chunks (strict : Bool) (b : Body) (v : Nat) (rest : Bytes) :
    loop strict (atStart v) none (b.bytes ++ rest) = ⟨atTrailers, b.events, rest⟩ := by
  obtain ⟨chunks, last, hlast⟩ := b
  simp only [Body.bytes, Body.events]
  induction chunks generalizing v with
  | nil =>
    rw [List.flatMap_nil, List.nil_append, loop_line, hlast]
    cases rest <;> rw [loop] <;> rfl
  | cons c chunks ih =>
    have hmore : ¬c.line.value = 0 := by
      rw [c.length]
      exact fun hzero => c.data_ne (List.eq_nil_of_length_eq_zero hzero)
    have hchunk : (c :: chunks).flatMap Chunk.bytes ++ last.bytes ++ rest =
        c.line.bytes ++ (c.data ++ ([CR, LF] ++ (chunks.flatMap Chunk.bytes ++ last.bytes ++ rest))) := by
      simp [Chunk.bytes]
    rw [hchunk, loop_line, if_neg hmore, c.length, loop_data c.data_ne, ih]
    rfl

end

/-- The data that is called back. -/
def bodies (events : List Event) : Bytes :=
  events.flatMap fun
    | .body buf => buf
    | .notice _ => []

def Token.byte : Token → Option UInt8
  | .data ch => some ch
  | .notice _ => none

theorem bodies_eq (events : List Event) : bodies events = (tokens events).filterMap Token.byte := by
  induction events with
  | nil => rfl
  | cons e events ih =>
    rw [bodies, tokens, List.flatMap_cons, List.flatMap_cons, List.filterMap_append, ← tokens, ← ih]
    congr 1
    cases e with
    | body buf => simp [Event.tokens, Token.byte, Function.comp_def]
    | notice n => rfl

theorem bodies_chunks (b : Body) : bodies b.events = b.data := by
  rw [bodies, Body.events, List.flatMap_append, List.flatMap_assoc]
  simp [Chunk.events, Body.data]

theorem bytes_ne (b : Body) (rest : Bytes) : b.bytes ++ rest ≠ [] := by simp [Body.bytes, Line.bytes]

theorem atStart_ok (v : Nat) : (atStart v).Ok := ⟨rfl, by simp [atStart]⟩

/-- A call that gets all of it. -/
theorem execute_chunks (strict : Bool) (b : Body) (v : Nat) (rest : Bytes) :
    execute strict (atStart v) (b.bytes ++ rest) = ⟨atTrailers, b.events, rest⟩ := by
  obtain ⟨ch, data, hdata⟩ := List.exists_cons_of_ne_nil (bytes_ne b rest)
  rw [← loop_chunks strict b v rest, hdata]
  rfl

/-- Chunks in any pieces: nothing is wrong, the trailers are found, and the data are those of the chunks
    with a header and an end called back for each. -/
theorem feed_chunks (strict : Bool) (b : Body) {pieces : List Bytes} (rest : Bytes) (v : Nat)
    (hne : ∀ piece ∈ pieces, piece ≠ []) (hcut : pieces.flatten = b.bytes ++ rest) :
    (feed strict (atStart v) pieces).parser = atTrailers ∧ (feed strict (atStart v) pieces).rest = rest ∧
      tokens (feed strict (atStart v) pieces).events = tokens b.events ∧
      bodies (feed strict (atStart v) pieces).events = b.data := by
  have hsome : pieces ≠ [] := by
    rintro rfl
    exact bytes_ne b rest hcut.symm
  obtain ⟨hparser, hrest, hsaid⟩ := feed_execute strict (atStart_ok v) hne hsome
  rw [hcut, execute_chunks] at hparser hrest hsaid
  have htokens := hsaid (by rw [hparser]; rfl)
  refine ⟨hparser, hrest, htokens, ?_⟩
  rw [bodies_eq, htokens, ← bodies_eq, bodies_chunks]

theorem feed_chunks_bytewise : let r := feed true (atStart 0) (okBody.bytes.map fun ch => [ch])
    r.parser = atTrailers ∧ r.rest = [] ∧ tokens r.events = tokens okBody.events ∧ bodies r.events = okBody.data :=
  feed_chunks true okBody [] 0 (by decide) (by decide)

/-! What the strict parser takes for chunks. -/

/-- Where the parser is, and the bytes of the body that have brought it there. -/
inductive Reading : Parser → Bytes → Prop
  | size_start (chunks : List Chunk) (v : Nat) : Reading (atStart v) (chunks.flatMap Chunk.bytes)
  | size (chunks : List Chunk) (l : Size) (hext : l.extension = []) :
    Reading ⟨.chunk_size, l.value, l.text.length, none⟩ (chunks.flatMap Chunk.bytes ++ l.text)
  | parameters (chunks : List Chunk) (l : Size) (hext : l.extension ≠ []) :
    Reading ⟨.chunk_parameters, l.value, l.text.length, none⟩ (chunks.flatMap Chunk.bytes ++ l.text)
  | size_almost_done (chunks : List Chunk) (l : Size) :
    Reading ⟨.chunk_size_almost_done, l.value, l.text.length + 1, none⟩
      (chunks.flatMap Chunk.bytes ++ (l.text ++ [CR]))
  | data (chunks : List Chunk) (l : Line) (data : Bytes) (left : Nat) (hleft : left ≠ 0)
    (hdata : data.length + left = l.value) :
    Reading ⟨.chunk_data, left, 0, none⟩ (chunks.flatMap Chunk.bytes ++ (l.bytes ++ data))
  | data_almost_done (chunks : List Chunk) (c : Chunk) :
    Reading ⟨.chunk_data_almost_done, 0, 0, none⟩ (chunks.flatMap Chunk.bytes ++ (c.line.bytes ++ c.data))
  | data_done (chunks : List Chunk) (c : Chunk) :
    Reading ⟨.chunk_data_done, 0, 0, none⟩ (chunks.flatMap Chunk.bytes ++ (c.line.bytes ++ (c.data ++ [CR])))
  | finished (b : Body) : Reading atTrailers b.bytes

/-- A byte of a line is counted, if that is no error. -/
theorem count_counted {s : State} {v n : Nat} (hs : s.parsingHeader)
    (herrno : (Parser.mk s v n none).count.http_errno = none) :
    n < HTTP_MAX_HEADER_SIZE ∧ (Parser.mk s v n none).count = ⟨s, v, n + 1, none⟩ := by
  by_cases hn : n < HTTP_MAX_HEADER_SIZE
  · exact ⟨hn, count_header hs hn⟩
  · have hover : HTTP_MAX_HEADER_SIZE < n + 1 := by omega
    simp [Parser.count, hs, hover, Parser.fail] at herrno

theorem sizeFrom_append (v : Nat) (digits : Bytes) (ch : UInt8) :
    sizeFrom v (digits ++ [ch]) = sizeFrom v digits * 16 + (unhex ch).getD 0 := by
  rw [sizeFrom, List.foldl_append]
  rfl

theorem unhex_lt {ch : UInt8} {unhex_val : Nat} (h : unhex ch = some unhex_val) : unhex_val < 16 := by
  have hle : ∀ n : UInt8, ch ≤ n → ch.toNat ≤ n.toNat := fun n => UInt8.le_iff_toNat_le.mp
  simp only [unhex] at h
  split at h
  · rename_i hdigit
    have hch : ch.toNat ≤ 57 := hle 57 hdigit.2
    obtain rfl := Option.some.inj h
    omega
  · split at h
    · rename_i hupper
      have hch : ch.toNat ≤ 70 := hle 70 hupper.2
      obtain rfl := Option.some.inj h
      omega
    · split at h
      · rename_i hlower
        have hch : ch.toNat ≤ 102 := hle 102 hlower.2
        obtain rfl := Option.some.inj h
        omega
      · cases h

/-- A byte that the parser takes is a byte of the format. -/
theorem reading_byte {p : Parser} {used : Bytes} (ch : UInt8) (h : Reading p used) (hover : p.state.over = false)
    (hcount : p.count.http_errno = none) (hbyte : (p.count.byte true ch).1.http_errno = none) :
    Reading (p.count.byte true ch).1 (used ++ [ch]) := by
  cases h with
  | size_start chunks v =>
    obtain ⟨-, hcounted⟩ := count_counted rfl hcount
    rw [atStart, hcounted] at hbyte ⊢
    cases hval : unhex ch with
    | none => simp [Parser.byte, Parser.control, hval, Parser.fail] at hbyte
    | some unhex_val =>
      have hlt := unhex_lt hval
      have hsize : sizeFrom 0 [ch] = unhex_val := by simp [sizeFrom, hval]
      have hread := Reading.size chunks
        { digits := [ch], extension := [], digits_ne := by simp, hex := by simp [hval],
          fits := by rw [hsize]; omega, starts := by simp, noCR := by simp } rfl
      simpa [Parser.byte, Parser.control, hval, Size.value, hsize, Size.text] using hread
  | size chunks l hext =>
    obtain ⟨-, hcounted⟩ := count_counted rfl hcount
    rw [hcounted] at hbyte ⊢
    by_cases hCR : ch = CR
    · subst hCR
      simpa [Parser.byte, Parser.control] using Reading.size_almost_done chunks l
    · cases hval : unhex ch with
      | none =>
        by_cases hmore : ch = 59 ∨ ch = 32
        · have hread := Reading.parameters chunks
            { l with extension := [ch], starts := by simpa using hmore, noCR := by simpa using Ne.symm hCR } (by simp)
          simpa [Parser.byte, Parser.control, hCR, hval, hmore, Size.text, hext, Size.value] using hread
        · simp [Parser.byte, Parser.control, hCR, hval, hmore, Parser.fail] at hbyte
      | some unhex_val =>
        have hlt := unhex_lt hval
        by_cases hlarge : (ULLONG_MAX - 16) / 16 < sizeFrom 0 l.digits
        · simp [Parser.byte, Parser.control, hCR, hval, Size.value, hlarge, Parser.fail] at hbyte
        · have hsize : sizeFrom 0 (l.digits ++ [ch]) = sizeFrom 0 l.digits * 16 + unhex_val := by
            rw [sizeFrom_append, hval]
            rfl
          have hread := Reading.size chunks
            { digits := l.digits ++ [ch], extension := [], digits_ne := by simp, starts := by simp, noCR := by simp
              hex := by
                intro d hd
                rcases List.mem_append.mp hd with hd | hd
                · exact l.hex d hd
                · rw [List.mem_singleton.mp hd, hval]
                  rfl
              fits := by
                rw [hsize]
                simp only [ULLONG_MAX] at hlarge
                omega } rfl
          simpa [Parser.byte, Parser.control, hCR, hval, hlarge, Size.text, hext, Size.value, hsize] using hread
  | parameters chunks l hext =>
    obtain ⟨-, hcounted⟩ := count_counted rfl hcount
    rw [hcounted]
    by_cases hCR : ch = CR
    · subst hCR
      simpa [Parser.byte, Parser.control] using Reading.size_almost_done chunks l
    · have hstarts : ∀ d ∈ (l.extension ++ [ch]).head?, d = 59 ∨ d = 32 := by
        rw [List.head?_append_of_ne_nil _ hext]
        exact l.starts
      have hread := Reading.parameters chunks
        { l with
          extension := l.extension ++ [ch]
          starts := hstarts
          noCR := by simpa using ⟨l.noCR, Ne.symm hCR⟩ } (by simp)
      simpa [Parser.byte, Parser.control, hCR, Size.text, Size.value, Nat.add_assoc] using hread
  | size_almost_done chunks l =>
    obtain ⟨hn, hcounted⟩ := count_counted rfl hcount
    rw [hcounted] at hbyte ⊢
    by_cases hLF : ch = LF
    · subst hLF
      have hline : ∃ line : Line, line.toSize = l := ⟨{ l with short := hn }, rfl⟩
      obtain ⟨line, rfl⟩ := hline
      by_cases hzero : line.value = 0
      · have hread := Reading.finished ⟨chunks, line, hzero⟩
        simpa [Parser.byte, Parser.control, hzero, atTrailers, Body.bytes, Line.bytes] using hread
      · have hread := Reading.data chunks line [] line.value hzero (Nat.zero_add _)
        simpa [Parser.byte, Parser.control, hzero, Line.bytes] using hread
    · simp [Parser.byte, Parser.control, hLF, Parser.fail] at hbyte
  | data chunks l data left hleft hdata =>
    rw [count_data rfl]
    by_cases hlast : left - 1 = 0
    · have hlength : l.value = (data ++ [ch]).length := by
        rw [List.length_append, List.length_singleton]
        omega
      have hread := Reading.data_almost_done chunks ⟨l, data ++ [ch], hlength, by simp⟩
      simpa [Parser.byte, Parser.read, State.done, hlast] using hread
    · have hlength : (data ++ [ch]).length + (left - 1) = l.value := by
        rw [List.length_append, List.length_singleton]
        omega
      have hread := Reading.data chunks l (data ++ [ch]) (left - 1) hlast hlength
      simpa [Parser.byte, Parser.read, hlast] using hread
  | data_almost_done chunks c =>
    rw [count_data rfl] at hbyte ⊢
    by_cases hCR : ch = CR
    · subst hCR
      simpa [Parser.byte, Parser.control] using Reading.data_done chunks c
    · simp [Parser.byte, Parser.control, hCR, Parser.fail] at hbyte
  | data_done chunks c =>
    rw [count_data rfl] at hbyte ⊢
    by_cases hLF : ch = LF
    · subst hLF
      simpa [Parser.byte, Parser.control, atStart, Chunk.bytes] using Reading.size_start (chunks ++ [c]) 0
    · simp [Parser.byte, Parser.control, hLF, Parser.fail] at hbyte
  | finished b => cases hover

/-- What the parser has used, when nothing has gone wrong, is the body as far as it has read it. -/
theorem reading_plain {p : Parser} {used : Bytes} (data : Bytes) (h : Reading p used)
    (herrno : (plain true p data).parser.http_errno = none) :
    ∃ more, data = more ++ (plain true p data).rest ∧ Reading (plain true p data).parser (used ++ more) := by
  induction data generalizing p used with
  | nil => exact ⟨[], rfl, (List.append_nil used).symm ▸ h⟩
  | cons ch data ih =>
    rw [plain] at herrno ⊢
    split at herrno
    · rename_i hstop
      rw [if_pos hstop]
      exact ⟨[], rfl, (List.append_nil used).symm ▸ h⟩
    · rename_i hgoes
      rw [if_neg hgoes]
      split at herrno
      · rename_i hcount
        rw [herrno] at hcount
        cases hcount
      · rename_i hcount
        rw [if_neg hcount]
        simp only at herrno ⊢
        split at herrno
        · rename_i hbyte
          rw [herrno] at hbyte
          cases hbyte
        · rename_i hbyte
          rw [if_neg hbyte]
          have hover : p.state.over = false := by simp_all
          have hnext := reading_byte ch h hover (Option.not_isSome_iff_eq_none.mp hcount)
            (Option.not_isSome_iff_eq_none.mp hbyte)
          obtain ⟨more, hmore, hread⟩ := ih hnext herrno
          refine ⟨ch :: more, congrArg (ch :: ·) hmore, ?_⟩
          rw [List.append_assoc] at hread
          exact hread

/-- The strict parser comes to the trailers, with some bytes left, just for chunks in front of these. -/
theorem accepts_iff {pieces : List Bytes} (v : Nat) (rest : Bytes) (hne : ∀ piece ∈ pieces, piece ≠ []) :
    (feed true (atStart v) pieces).parser = atTrailers ∧ (feed true (atStart v) pieces).rest = rest ↔
      ∃ b : Body, pieces.flatten = b.bytes ++ rest := by
  constructor
  · rintro ⟨hparser, rfl⟩
    have hagrees := feed_agrees true (atStart_ok v) hne
    rw [hagrees.parser] at hparser
    obtain ⟨more, hmore, hread⟩ := reading_plain pieces.flatten (.size_start [] v) (by rw [hparser]; rfl)
    rw [hparser, List.flatMap_nil, List.nil_append] at hread
    rw [hagrees.rest]
    -- no other state is the one with the trailers
    cases hread with
    | finished b => exact ⟨b, hmore⟩
  · rintro ⟨b, hcut⟩
    obtain ⟨hparser, hrest, -⟩ := feed_chunks true b rest v hne hcut
    exact ⟨hparser, hrest⟩

theorem accepts_iff_bytewise :
    (feed true (atStart 0) (okBody.bytes.map fun ch => [ch])).parser = atTrailers ∧
        (feed true (atStart 0) (okBody.bytes.map fun ch => [ch])).rest = [] ↔
      ∃ b : Body, (okBody.bytes.map fun ch => [ch]).flatten = b.bytes ++ [] :=
  accepts_iff 0 [] (by decide)

/-! The request of `httpserver.c`. -/

/-- What `parser_settings` calls. -/
def Event.cbs : Event → List DataCb
  | .body buf => [.body buf]
  | .notice _ => []

theorem cbs_events (b : Body) : b.events.flatMap Event.cbs = (b.chunks.map Chunk.data).map DataCb.body := by
  rw [Body.events, List.flatMap_append, List.flatMap_assoc, List.map_map]
  simp only [Chunk.events, Event.cbs, List.flatMap_cons, List.flatMap_nil, List.append_nil, List.nil_append]
  exact List.flatMap_pure_eq_map _ _

/-- A list without empty pieces is no longer than its last one. -/
theorem trails_iff {pieces : List Bytes} (hsome : pieces ≠ []) (hne : ∀ p ∈ pieces, p ≠ []) :
    Trails pieces ↔ pieces.length = 1 := by
  have hlength : 0 < pieces.length := List.length_pos_iff.mpr hsome
  constructor
  · intro htrails
    have hnil : pieces.dropLast = [] := by
      refine List.eq_nil_iff_forall_not_mem.mpr fun p hp => ?_
      exact hne p (List.mem_of_mem_dropLast hp) (htrails p hp)
    have hzero := congrArg List.length hnil
    rw [List.length_dropLast, List.length_nil] at hzero
    omega
  · intro hone p hp
    obtain ⟨only, rfl⟩ := List.length_eq_one_iff.mp hone
    cases hp

/-- The server hands all it has read to one call; of a chunked body in it, the request has the data if
    there is one chunk. -/
theorem body_kept_iff (strict : Bool) (parser : HttpParser) (b : Body) (rest : Bytes) (v : Nat) (request : View)
    (hnew : request.body = none) :
    (((execute strict (atStart v) (b.bytes ++ rest)).events.flatMap Event.cbs).foldl (View.call parser) request).body =
      some b.data ↔ b.chunks.length = 1 := by
  rw [execute_chunks, cbs_events, View.foldl_body parser request hnew]
  by_cases hnil : b.chunks = []
  · simp [hnil]
  · have hsome : b.chunks.map Chunk.data ≠ [] := fun h => hnil (List.map_eq_nil_iff.mp h)
    have hdata : b.data = (b.chunks.map Chunk.data).flatten := List.flatMap_def ..
    have hkept : (b.chunks.map Chunk.data).getLast? = _ ↔ Trails _ := getLast?_eq_flatten_iff
    rw [if_neg hsome, ← hdata] at hkept
    rw [hkept, trails_iff hsome, List.length_map]
    rintro p hp rfl
    obtain ⟨c, -, hc⟩ := List.mem_map.mp hp
    exact c.data_ne hc

theorem body_kept_ok : (((execute true (atStart 0) (okBody.bytes ++ [])).events.flatMap Event.cbs).foldl
    (View.call ⟨"POST", 1, 1⟩) View.new).body = some okBody.data ↔ okBody.chunks.length = 1 :=
  body_kept_iff true ⟨"POST", 1, 1⟩ okBody [] 0 View.new rfl

end RubbishStore.Socket.HttpBody
