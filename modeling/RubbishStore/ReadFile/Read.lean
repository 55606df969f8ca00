import RubbishStore.Lib.Text
import RubbishStore.Socket.Unp

/- `read.c`, the program `cat_`. What `fgetc` returns goes into a `char` before it is
   compared with EOF. A signed `char` makes the byte 255 look like EOF, and the loop
   ends there (`copyLoop_signed`); an unsigned one is never EOF, and the loop does not
   end (`copyLoop_unsigned`). -/
namespace RubbishStore.ReadFile
open RubbishStore.Lib RubbishStore.Socket

/-- Whether a plain `char` has a sign is up to the compiler. -/
inductive PlainChar where
  | signed
  | unsigned
  deriving DecidableEq, Repr

/-- An `int` as a `char`. -/
def PlainChar.ofInt : PlainChar → Int → Int
  | .signed, x => x.bmod 256
  | .unsigned, x => x % 256

def EOF : Int := -1

/-- The bytes of the stream that are still to come. -/
abbrev Stream : Type := Bytes

def fgetc : Stream → Int × Stream
  | [] => (EOF, [])
  | b :: fp => (b.toNat, fp)

/-- What `printf("%c", character)` writes. -/
def printChar (character : Int) : UInt8 := UInt8.ofNat (character % 256).toNat

/-- `while((character=fgetc(fp)) != EOF)`, for less than `fuel` rounds; what has been
    written when it ends. -/
def copyLoop (char : PlainChar) : Nat → Stream → Bytes → Option Bytes
  | 0, _, _ => none
  | fuel + 1, fp, out =>
    let (c, fp) := fgetc fp
    let character := char.ofInt c
    if character ≠ EOF then copyLoop char fuel fp (out ++ [printChar character]) else some out

/-- Which files there are, and the contents of those that can be opened. -/
structure Files where
  access : Bytes → Bool
  fopen : Bytes → Option Bytes

/-- What `main` writes, `filename` being what `setOpn` has found. -/
def main (char : PlainChar) (files : Files) (filename : Bytes) (fuel : Nat) : Option Bytes :=
  let out := if filename = [] then octets "cat_ -f [filename]\n" else []
  if files.access filename then
    match files.fopen filename with
    | none => some (out ++ octets "open file fail!")
    | some fp => copyLoop char fuel fp out
  else some (out ++ octets "file not exsit!")

theorem signed_byte : ∀ b : UInt8,
    (PlainChar.signed.ofInt b.toNat = EOF ↔ b = 255) ∧
      printChar (PlainChar.signed.ofInt b.toNat) = b :=
  forall_byte (by decide +kernel)

theorem unsigned_ne_eof (x : Int) : PlainChar.unsigned.ofInt x ≠ EOF := by
  rw [PlainChar.ofInt, EOF]
  omega

section
variable (char : PlainChar) (fuel : Nat) (fp : Stream) (out : Bytes)

theorem copyLoop_succ :
    copyLoop char (fuel + 1) fp out =
      let character := char.ofInt (fgetc fp).1
      if character ≠ EOF then copyLoop char fuel (fgetc fp).2 (out ++ [printChar character])
      else some out := rfl

/-- A signed `char`: what stands before the first byte 255 is copied. -/
theorem copyLoop_signed :
    copyLoop .signed fuel fp out =
      if (fp.takeWhile (· ≠ 255)).length < fuel then some (out ++ fp.takeWhile (· ≠ 255)) else none := by
  induction fuel generalizing fp out with
  | zero => rfl
  | succ fuel ih =>
    cases fp with
    | nil =>
      rw [List.takeWhile_nil, List.append_nil, List.length_nil, if_pos (Nat.succ_pos fuel)]
      rfl
    | cons b fp =>
      obtain ⟨heof, hprint⟩ := signed_byte b
      rw [copyLoop_succ, fgetc]
      by_cases hb : b = 255
      · have hstop : (b :: fp).takeWhile (· ≠ 255) = [] :=
          List.takeWhile_cons_of_neg fun h => of_decide_eq_true h hb
        rw [hstop, List.append_nil, List.length_nil, if_pos (Nat.succ_pos fuel)]
        exact if_neg fun hne => hne (heof.mpr hb)
      · have hgo : (b :: fp).takeWhile (· ≠ 255) = b :: fp.takeWhile (· ≠ 255) :=
          List.takeWhile_cons_of_pos (decide_eq_true hb)
        show (if _ then _ else _) = _
        rw [if_pos fun heq => hb (heof.mp heq), hprint, ih, hgo]
        simp only [List.length_cons, Nat.succ_lt_succ_iff, List.append_assoc, List.singleton_append]

/-- An unsigned `char`: the loop goes on behind the end of the file. -/
theorem copyLoop_unsigned : copyLoop .unsigned fuel fp out = none := by
  induction fuel generalizing fp out with
  | zero => rfl
  | succ fuel ih =>
    rw [copyLoop_succ]
    exact (if_pos (unsigned_ne_eof _)).trans (ih _ _)

end

/-- A file is copied exactly where `char` has a sign and the file holds no byte 255. -/
theorem cat_copies_iff (char : PlainChar) (files : Files) {filename content : Bytes}
    (hname : filename ≠ []) (haccess : files.access filename = true)
    (hopen : files.fopen filename = some content) :
    (∃ fuel, main char files filename fuel = some content) ↔ char = .signed ∧ 255 ∉ content := by
  have hmain : ∀ fuel, main char files filename fuel = copyLoop char fuel content [] := by
    intro fuel
    rw [main, if_pos haccess, hopen, if_neg hname]
  have hwhole : content.takeWhile (· ≠ 255) = content ↔ 255 ∉ content := by
    rw [List.takeWhile_eq_self_iff]
    refine ⟨fun h hmem => ?_, fun h b hb => decide_eq_true fun heq => h (heq ▸ hb)⟩
    exact of_decide_eq_true (h 255 hmem) rfl
  constructor
  · intro hend
    obtain ⟨fuel, hcopied⟩ := hend
    rw [hmain] at hcopied
    cases char with
    | signed =>
      refine ⟨rfl, hwhole.mp ?_⟩
      rw [copyLoop_signed] at hcopied
      split at hcopied
      · exact Option.some.inj hcopied
      · cases hcopied
    | unsigned =>
      rw [copyLoop_unsigned] at hcopied
      cases hcopied
  · intro hcond
    obtain ⟨rfl, hplain⟩ := hcond
    refine ⟨content.length + 1, ?_⟩
    rw [hmain, copyLoop_signed, hwhole.mpr hplain, if_pos (Nat.lt_succ_self _)]
    rfl

/-- Every name is a file with these contents. -/
def oneFile (content : Bytes) : Files where
  access _ := true
  fopen _ := some content

theorem cat_copies_iff_hi :
    (∃ fuel, main .signed (oneFile [104, 105]) [97] fuel = some [104, 105]) ↔
      PlainChar.signed = .signed ∧ (255 : UInt8) ∉ [104, 105] :=
  cat_copies_iff .signed (oneFile [104, 105]) (by decide) rfl rfl

/-- A file that is the byte 255: nothing is written with a signed `char`, and with an
    unsigned one the loop does not end, whatever the file. -/
theorem cat_byte_255 :
    ¬ ∀ (char : PlainChar) (content : Bytes), ∃ fuel,
      main char (oneFile content) [97] fuel = some content := by
  intro hall
  obtain ⟨fuel, hend⟩ := hall .signed [255]
  have hrun : main .signed (oneFile [255]) [97] fuel = copyLoop .signed fuel [255] [] := rfl
  rw [hrun, copyLoop_signed] at hend
  split at hend
  · exact absurd (Option.some.inj hend) (by decide)
  · cases hend

end RubbishStore.ReadFile
