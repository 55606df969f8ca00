import RubbishStore.Lib.Framing
import RubbishStore.Socket.Unp

/- `unpv13e/lib/readline.c`. The bytes that a `read` brings wait in a static buffer,
   from which `my_read` gives them out one by one; `readline` takes them up to a
   newline, or until its line is full. What it gives depends on the bytes that
   arrive and not on the parts in which they do (`readline_collects`): calls one
   after the other give the pieces that the bytes are cut into (`readlines_cut`). -/
namespace RubbishStore.Socket
open RubbishStore.Lib

/-- What a `read` answers. -/
inductive ReadAnswer where
  /-- `-1` with `EINTR` -/
  | interrupted
  /-- `-1` with any other error -/
  | failed
  /-- these bytes, or the first `MAXLINE` of them; none at end of file -/
  | arrived (bytes : Bytes)
  deriving DecidableEq, Repr

/-- The static variables of `readline.c`. -/
structure ReadBuf where
  readCnt : Int := 0
  readPtr : Nat := 0
  readBuf : Bytes := List.replicate MAXLINE 0
  deriving DecidableEq, Repr

/-- Why there is no byte to give out: `read` has not answered yet, or has met the
    end of file (`my_read` returns 0) or an error (-1). -/
inductive Stop where
  | waiting
  | eof
  | failed
  deriving DecidableEq, Repr

/-- A byte, or why there is none, and the buffer and the answers that are left. -/
structure Fetched where
  byte : Except Stop UInt8
  buf : ReadBuf
  answers : List ReadAnswer

/-- What a call has come to: what it returns, if it has, and what it has stored. -/
structure Reading where
  returned : Option Int
  line : Bytes
  buf : ReadBuf
  answers : List ReadAnswer

namespace ReadBuf

/-- The next byte of the buffer. -/
def next (b : ReadBuf) (answers : List ReadAnswer) : Fetched :=
  ⟨.ok (b.readBuf.getD b.readPtr 0), { b with readCnt := b.readCnt - 1, readPtr := b.readPtr + 1 }, answers⟩

/-- What a `read` of these bytes leaves in the static variables. -/
def filled (b : ReadBuf) (bytes : Bytes) : ReadBuf :=
  { readCnt := bytes.length, readPtr := 0, readBuf := overwrite b.readBuf bytes }

/-- `again:` -/
def again (b : ReadBuf) : List ReadAnswer → Fetched
  | [] => ⟨.error .waiting, b, []⟩
  | .interrupted :: answers => again { b with readCnt := -1 } answers
  | .failed :: answers => ⟨.error .failed, { b with readCnt := -1 }, answers⟩
  | .arrived bytes :: answers =>
    let bytes := bytes.take MAXLINE
    if bytes = [] then ⟨.error .eof, { b with readCnt := 0 }, answers⟩
    else (b.filled bytes).next answers

/-- `my_read` -/
def myRead (b : ReadBuf) (answers : List ReadAnswer) : Fetched :=
  if b.readCnt ≤ 0 then b.again answers else b.next answers

/-- The bytes that are in the buffer. -/
def unread (b : ReadBuf) : Bytes := (b.readBuf.drop b.readPtr).take b.readCnt.toNat

/-- The count does not reach beyond the buffer. -/
def Sound (b : ReadBuf) : Prop := b.readPtr + b.readCnt.toNat ≤ b.readBuf.length

end ReadBuf

/-- `readline` returns this when there is no further byte. -/
def Stop.returned (stored : Nat) : Stop → Option Int
  | .waiting => none
  | .eof => some stored
  | .failed => some (-1)

/-- The loop of `readline`, with as many bytes to go as there is room for. -/
def readlineLoop : Nat → Bytes → ReadBuf → List ReadAnswer → Reading
  | 0, line, b, answers => ⟨some (line.length + 1), line, b, answers⟩
  | room + 1, line, b, answers =>
    match b.myRead answers with
    | ⟨.ok c, b, answers⟩ =>
      if c = 10 then ⟨some (line.length + 1), line ++ [c], b, answers⟩
      else readlineLoop room (line ++ [c]) b answers
    | ⟨.error stop, b, answers⟩ => ⟨stop.returned line.length, line, b, answers⟩

/-- `readline(fd, vptr, maxlen)` -/
def readline (maxlen : Nat) (b : ReadBuf) (answers : List ReadAnswer) : Reading :=
  readlineLoop (maxlen - 1) [] b answers

/-- Where a line ends: behind a newline, or where the next byte would be the NUL. -/
def lineEnds (maxlen : Nat) (line : Bytes) : Bool := line.getLast? = some 10 || line.length + 1 = maxlen

/-! The bytes on their way. -/

/-- The bytes that arrive before the end of file or an error. -/
def arriving : List ReadAnswer → Bytes
  | [] => []
  | .interrupted :: answers => arriving answers
  | .failed :: _ => []
  | .arrived bytes :: answers => if bytes = [] then [] else bytes.take MAXLINE ++ arriving answers

/-- What comes behind them. -/
def stopping : List ReadAnswer → Stop
  | [] => .waiting
  | .interrupted :: answers => stopping answers
  | .failed :: _ => .failed
  | .arrived bytes :: answers => if bytes = [] then .eof else stopping answers

namespace ReadBuf
variable {b : ReadBuf} {answers : List ReadAnswer}

theorem sound_start : ({} : ReadBuf).Sound := Nat.zero_le _

theorem unread_start : ({} : ReadBuf).unread = [] := List.take_zero

theorem unread_eq_nil (h : b.readCnt ≤ 0) : b.unread = [] := by
  rw [unread, Int.toNat_of_nonpos h, List.take_zero]

theorem next_spec (hb : b.Sound) (hcnt : 0 < b.readCnt) (answers : List ReadAnswer) :
    ∃ c b', b.next answers = ⟨.ok c, b', answers⟩ ∧ b'.Sound ∧ b.unread = c :: b'.unread := by
  obtain ⟨n, hn⟩ := Int.eq_succ_of_zero_lt hcnt
  have hcount : b.readCnt.toNat = n + 1 := by omega
  rw [Sound, hcount] at hb
  have hlt : b.readPtr < b.readBuf.length := by omega
  refine ⟨_, _, rfl, ?_, ?_⟩
  · show b.readPtr + 1 + (b.readCnt - 1).toNat ≤ b.readBuf.length
    omega
  · have hpred : (b.readCnt - 1).toNat = n := by omega
    show (b.readBuf.drop b.readPtr).take b.readCnt.toNat =
      b.readBuf.getD b.readPtr 0 :: (b.readBuf.drop (b.readPtr + 1)).take (b.readCnt - 1).toNat
    rw [hpred, hcount, List.drop_eq_getElem_cons hlt, List.take_succ_cons,
      List.getD_eq_getElem?_getD, List.getElem?_eq_getElem hlt]
    rfl

theorem sound_filled (b : ReadBuf) (bytes : Bytes) : (b.filled bytes).Sound := by
  show 0 + (bytes.length : Int).toNat ≤ (bytes ++ b.readBuf.drop bytes.length).length
  rw [List.length_append, Int.toNat_natCast]
  omega

theorem unread_filled (b : ReadBuf) (bytes : Bytes) : (b.filled bytes).unread = bytes := by
  show ((bytes ++ b.readBuf.drop bytes.length).drop 0).take (bytes.length : Int).toNat = bytes
  rw [List.drop_zero, Int.toNat_natCast, List.take_left]

/-- A byte of those that are on their way, or none is and the reason stands behind them. -/
def Fetches (b : ReadBuf) (answers : List ReadAnswer) (f : Fetched) : Prop :=
  f.buf.Sound ∧
    ((∃ c, f.byte = .ok c ∧ b.unread ++ arriving answers = c :: (f.buf.unread ++ arriving f.answers) ∧
        stopping f.answers = stopping answers) ∨
      b.unread ++ arriving answers = [] ∧ f.byte = .error (stopping answers) ∧ f.buf.unread = [])

theorem next_fetches (hb : b.Sound) (hcnt : 0 < b.readCnt) (answers : List ReadAnswer) :
    Fetches b answers (b.next answers) := by
  obtain ⟨c, b', hnext, hsound, hunread⟩ := next_spec hb hcnt answers
  rw [hnext]
  refine ⟨hsound, .inl ⟨c, rfl, ?_, rfl⟩⟩
  rw [hunread, List.cons_append]

theorem sound_of_nonpos (hb : b.Sound) {n : Int} (hn : n ≤ 0) : ({ b with readCnt := n } : ReadBuf).Sound := by
  have hn : n.toNat = 0 := Int.toNat_of_nonpos hn
  rw [Sound] at hb
  show b.readPtr + n.toNat ≤ b.readBuf.length
  omega

theorem again_fetches (hb : b.Sound) (hcnt : b.readCnt ≤ 0) (answers : List ReadAnswer) :
    Fetches b answers (b.again answers) := by
  have hempty := unread_eq_nil hcnt
  induction answers generalizing b with
  | nil => exact ⟨hb, .inr ⟨by rw [hempty]; rfl, rfl, hempty⟩⟩
  | cons answer answers ih =>
    have hle : (-1 : Int) ≤ 0 := by decide
    have hminus : ({ b with readCnt := -1 } : ReadBuf).unread = [] := unread_eq_nil hle
    cases answer with
    | interrupted =>
      have hrest := ih (sound_of_nonpos hb hle) hle hminus
      rw [Fetches, hminus] at hrest
      rw [Fetches, hempty]
      exact hrest
    | failed => exact ⟨sound_of_nonpos hb hle, .inr ⟨by rw [hempty]; rfl, rfl, hminus⟩⟩
    | arrived bytes =>
      rw [again]
      by_cases hnil : bytes = []
      · -- end of file
        rw [hnil, List.take_nil]
        refine ⟨sound_of_nonpos hb (by decide), .inr ⟨?_, ?_, unread_eq_nil (le_refl 0)⟩⟩
        · rw [hempty, arriving, if_pos rfl]
          rfl
        · rw [stopping, if_pos rfl]
          rfl
      · have htake : bytes.take MAXLINE ≠ [] := by
          rw [Ne, List.take_eq_nil_iff]
          exact not_or.mpr ⟨by decide, hnil⟩
        have hpos := List.length_pos_of_ne_nil htake
        simp only [if_neg htake]
        -- the buffer is filled anew
        have hfill := next_fetches (sound_filled b (bytes.take MAXLINE)) (Int.natCast_pos.mpr hpos) answers
        rw [Fetches, unread_filled] at hfill
        rw [Fetches, hempty, arriving, if_neg hnil, stopping, if_neg hnil]
        exact hfill

theorem myRead_fetches (hb : b.Sound) (answers : List ReadAnswer) : Fetches b answers (b.myRead answers) := by
  rw [myRead]
  split
  · rename_i hcnt
    exact again_fetches hb hcnt answers
  · rename_i hcnt
    exact next_fetches hb (Int.lt_of_not_ge hcnt) answers

end ReadBuf

open Framing

section
variable {maxlen room : Nat} {line : Bytes} {b : ReadBuf} {answers : List ReadAnswer}

/-- What `readline` returns with a whole line: of a full one, a byte more than there are. -/
def counted (line : Bytes) : Int := if line.getLast? = some 10 then line.length else line.length + 1

/-- A whole line is taken off the bytes on their way, or all of them and no line is whole. -/
def Collects (maxlen : Nat) (s : Bytes) (answers : List ReadAnswer) (r : Reading) : Prop :=
  r.buf.Sound ∧
    (IsPiece (lineEnds maxlen) r.line ∧ s = r.line ++ (r.buf.unread ++ arriving r.answers) ∧
        stopping r.answers = stopping answers ∧ r.returned = some (counted r.line) ∨
      Open (lineEnds maxlen) r.line ∧ s = r.line ∧ r.buf.unread = [] ∧
        r.returned = (stopping answers).returned r.line.length)

theorem lineEnds_concat (line : Bytes) (c : UInt8) :
    lineEnds maxlen (line ++ [c]) = true ↔ c = 10 ∨ line.length + 2 = maxlen := by
  rw [lineEnds, List.getLast?_concat, Bool.or_eq_true, decide_eq_true_eq, decide_eq_true_eq, List.length_append,
    List.length_singleton, Option.some_inj]

/-- While there is room the line is open; when there is none left it is full, without a newline. -/
theorem readlineLoop_collects (hb : b.Sound)
    (hline : 0 < room ∧ Open (lineEnds maxlen) line ∨
      room = 0 ∧ IsPiece (lineEnds maxlen) line ∧ line.getLast? ≠ some 10)
    (hroom : line.length + 1 + room = maxlen) (answers : List ReadAnswer) :
    Collects maxlen (line ++ (b.unread ++ arriving answers)) answers (readlineLoop room line b answers) := by
  induction room generalizing line b answers with
  | zero =>
    rcases hline with ⟨hpos, -⟩ | ⟨-, hpiece, hlast⟩
    · exact absurd hpos (Nat.lt_irrefl 0)
    · refine ⟨hb, .inl ⟨hpiece, rfl, rfl, ?_⟩⟩
      exact congrArg some (if_neg hlast).symm
  | succ room ih =>
    rcases hline with ⟨-, hopen⟩ | ⟨hzero, -⟩
    · have hfetch := ReadBuf.myRead_fetches hb answers
      rw [readlineLoop]
      generalize b.myRead answers = f at hfetch
      obtain ⟨byte, b', answers'⟩ := f
      obtain ⟨hsound, ⟨c, hbyte, hs, hstop⟩ | ⟨hs, hbyte, hunread⟩⟩ := hfetch
      · obtain rfl : byte = .ok c := hbyte
        rw [hs, List.append_cons]
        by_cases hc : c = 10
        · simp only [if_pos hc]
          refine ⟨hsound, .inl ⟨hopen.isPiece ((lineEnds_concat line c).mpr (.inl hc)), rfl, hstop, ?_⟩⟩
          rw [counted, List.getLast?_concat, if_pos (by rw [hc]), List.length_append]
          rfl
        · simp only [if_neg hc]
          -- the line with one byte more, which may be its last
          have hlength : (line ++ [c]).length + 1 + room = maxlen := by
            rw [List.length_append, List.length_singleton]
            omega
          have hnext := ih hsound ?_ hlength answers'
          · rw [Collects, hstop] at hnext
            exact hnext
          · rcases Nat.eq_zero_or_pos room with hzero | hpos
            · right
              have hfull : lineEnds maxlen (line ++ [c]) = true := (lineEnds_concat line c).mpr (.inr (by omega))
              refine ⟨hzero, hopen.isPiece hfull, ?_⟩
              rw [List.getLast?_concat]
              exact fun heq => hc (Option.some.inj heq)
            · left
              refine ⟨hpos, hopen.concat (Bool.eq_false_iff.mpr fun hends => ?_)⟩
              rcases (lineEnds_concat line c).mp hends with heq | heq
              · exact hc heq
              · omega
      · obtain rfl : byte = .error (stopping answers) := hbyte
        rw [hs, List.append_nil]
        exact ⟨hsound, .inr ⟨hopen, rfl, hunread, rfl⟩⟩
    · exact absurd hzero (Nat.succ_ne_zero room)

theorem readline_collects (hmaxlen : 2 ≤ maxlen) (hb : b.Sound) (answers : List ReadAnswer) :
    Collects maxlen (b.unread ++ arriving answers) answers (readline maxlen b answers) :=
  readlineLoop_collects hb (.inl ⟨by omega, open_nil⟩) (by rw [List.length_nil]; omega) answers

end

/-- `readline` called again and again, at most so many times, until a call brings no
    whole line: what every call returns and what it stores. -/
def readlines (maxlen : Nat) : Nat → ReadBuf → List ReadAnswer → List (Option Int × Bytes)
  | 0, _, _ => []
  | calls + 1, b, answers =>
    let r := readline maxlen b answers
    (r.returned, r.line) :: (if lineEnds maxlen r.line then readlines maxlen calls r.buf r.answers else [])

/-- What the calls give of these bytes, and of what stops them. -/
def called (maxlen : Nat) (s : Bytes) (stop : Stop) : List (Option Int × Bytes) :=
  let pieces := cut (lineEnds maxlen) [] s
  pieces.1.map (fun line => (some (counted line), line)) ++ [(stop.returned pieces.2.length, pieces.2)]

theorem called_piece {maxlen : Nat} {line : Bytes} (h : IsPiece (lineEnds maxlen) line) (s : Bytes) (stop : Stop) :
    called maxlen (line ++ s) stop = (some (counted line), line) :: called maxlen s stop := by
  have hcut : cut (lineEnds maxlen) [] line = ([line], []) := cut_piece h h.ne_nil
  simp only [called, cut_append, hcut]
  rfl

theorem called_open {maxlen : Nat} {s : Bytes} (h : Open (lineEnds maxlen) s) (stop : Stop) :
    called maxlen s stop = [(stop.returned s.length, s)] := by
  have hcut : cut (lineEnds maxlen) [] s = ([], s) := cut_open h
  simp only [called, hcut]
  rfl

theorem readlines_from {maxlen : Nat} {b : ReadBuf} (hmaxlen : 2 ≤ maxlen) (hb : b.Sound) (answers : List ReadAnswer)
    (calls : Nat) :
    readlines maxlen calls b answers = (called maxlen (b.unread ++ arriving answers) (stopping answers)).take calls := by
  induction calls generalizing b answers with
  | zero => rfl
  | succ calls ih =>
    obtain ⟨hsound, ⟨hpiece, hs, hstop, hreturned⟩ | ⟨hopen, hs, hunread, hreturned⟩⟩ :=
      readline_collects hmaxlen hb answers
    · rw [readlines, if_pos hpiece.whole, ih hsound, hs, called_piece hpiece, List.take_succ_cons, hstop, hreturned]
    · -- the bytes were all taken
      rw [readlines, hs, called_open hopen, List.take_succ_cons, List.take_nil, hreturned]
      have hends : lineEnds maxlen (readline maxlen b answers).line = false := by
        by_cases hnil : (readline maxlen b answers).line = []
        · rw [hnil]
          exact decide_eq_false fun heq => Nat.not_lt.mpr hmaxlen (heq ▸ Nat.lt_succ_self 1)
        · exact hopen _ List.prefix_rfl hnil
      rw [if_neg (Bool.eq_false_iff.mp hends)]

/-- The lines are the pieces of what arrives, whatever the parts it arrives in, and
    the last call has the rest. Each call returns the number of its bytes, but for a
    full line without a newline one more. -/
theorem readlines_cut (maxlen : Nat) (hmaxlen : 2 ≤ maxlen) (answers : List ReadAnswer) (calls : Nat) :
    let pieces := cut (lineEnds maxlen) [] (arriving answers)
    readlines maxlen calls {} answers =
      (pieces.1.map (fun line => (some (counted line), line)) ++
        [((stopping answers).returned pieces.2.length, pieces.2)]).take calls :=
  readlines_from hmaxlen ReadBuf.sound_start answers calls

/-- `ab`, a newline and `c`, in two parts. -/
theorem readlines_cut_abc :
    readlines 4 3 {} [.arrived [97, 98], .interrupted, .arrived [10, 99], .arrived []] =
      [(some 3, [97, 98, 10]), (some 1, [99])] :=
  readlines_cut 4 (by decide) [.arrived [97, 98], .interrupted, .arrived [10, 99], .arrived []] 3

end RubbishStore.Socket
