import RubbishStore.Lib.Base64
import RubbishStore.Lib.Feedback
import RubbishStore.Lib.Md5
import RubbishStore.Lib.Replace
import Mathlib.Data.List.TakeWhile

/- `Util_GlobalFunc::md5e` and `md5d`. The plain text gets an end mark, is filled up
   to blocks of sixteen bytes and enciphered with a key stream of MD5 digests
   (`md5e_eq`). The result goes as base64, with the letters `Anjuke` for every `/`;
   the decoder puts a `/` for these letters in any case, so the text comes back
   exactly when the base64 text does not hold them by itself (`md5d_md5e_iff`). The
   two block loops undo each other for any hash of sixteen bytes
   (`md5dBlocks_md5eBlocks`). -/
namespace RubbishStore.Util.GlobalFunc
open RubbishStore.Lib RubbishStore.Lib.Replace RubbishStore.Lib.Md5

/-- `MD5_KEY` -/
def md5Key : Octets := octets "Anjuke"

/-- `^` of two strings is as long as the shorter one. -/
def xor (s t : Octets) : Octets := List.zipWith (· ^^^ ·) s t

/-- For a pattern that is a word. -/
def eregiReplace (word rep s : Octets) : Octets := substitute (ofWord lower word) rep 0 s

/-- The bytes that `mt_rand` gives, call after call. -/
def getRndIv (mtRand : Nat → Nat) (ivLen : Nat) : Octets :=
  (List.range ivLen).map fun k => (mtRand k &&& 0xff).toUInt8

/-- The values of `$i` in `while ($i < $n) { …; $i += 16; }`. -/
def offsets (i n : Nat) : List Nat := List.range' i ((n - i + 15) / 16) 16

/-- The end mark, and zeros up to a multiple of sixteen. -/
def fill (plainText : Octets) : Octets :=
  let plainText := plainText ++ [0x13]
  let n := plainText.length
  if n % 16 ≠ 0 then plainText ++ List.replicate (16 - n % 16) 0 else plainText

/-- The source names the generator `get_rnd_iv` here. -/
def md5e (mtRand : Nat → Nat) (plainText password : Octets) (ivLen : Nat := 8) : Octets :=
  let n := (plainText ++ [0x13]).length
  let plainText := fill plainText
  let encText := getRndIv mtRand ivLen
  let iv := (xor password encText).take 512
  let encText := ((offsets 0 n).foldl (fun s i =>
    let (encText, iv) := s
    let block := xor ((plainText.drop i).take 16) (packH (md5 iv))
    (encText ++ block, xor ((block ++ iv).take 512) password)) (encText, iv)).1
  eregiReplace (octets "/") md5Key (Base64.encode encText)

/-- `/\x13\x00*$/`; the end of a text is also before a last line feed. -/
def endMark : Octets → Option Nat
  | [] => none
  | b :: s =>
    let rest := s.dropWhile (· == 0)
    if b = 0x13 ∧ (rest = [] ∨ rest = [10]) then some ((s.takeWhile (· == 0)).length + 1) else none

/-- A base64 text that cannot be decoded counts as empty. -/
def md5d (encText password : Octets) (ivLen : Nat := 8) : Octets :=
  let encText := eregiReplace md5Key (octets "/") encText
  let encText := (Base64.decode encText).getD []
  let n := encText.length
  let iv := (xor password (encText.take ivLen)).take 512
  let plainText := ((offsets ivLen n).foldl (fun s i =>
    let (plainText, iv) := s
    let block := (encText.drop i).take 16
    (plainText ++ xor block (packH (md5 iv)), xor ((block ++ iv).take 512) password)) ([], iv)).1
  substitute endMark [] 0 plainText

/-! The block loops, with a hash in the place of `pack('H*', md5($iv))`. -/

section
variable (hash : Octets → Octets)

/-- What `md5e` has before base64, behind an initial vector. -/
def md5eBlocks (encText plainText password : Octets) : Octets :=
  let n := (plainText ++ [0x13]).length
  let plainText := fill plainText
  let iv := (xor password encText).take 512
  ((offsets 0 n).foldl (fun s i =>
    let (encText, iv) := s
    let block := xor ((plainText.drop i).take 16) (hash iv)
    (encText ++ block, xor ((block ++ iv).take 512) password)) (encText, iv)).1

/-- What `md5d` does after base64. -/
def md5dBlocks (encText password : Octets) (ivLen : Nat) : Octets :=
  let n := encText.length
  let iv := (xor password (encText.take ivLen)).take 512
  let plainText := ((offsets ivLen n).foldl (fun s i =>
    let (plainText, iv) := s
    let block := (encText.drop i).take 16
    (plainText ++ xor block (hash iv), xor ((block ++ iv).take 512) password)) ([], iv)).1
  substitute endMark [] 0 plainText

end

theorem md5e_blocks (mtRand : Nat → Nat) (plainText password : Octets) (ivLen : Nat) :
    md5e mtRand plainText password ivLen = eregiReplace (octets "/") md5Key
      (Base64.encode (md5eBlocks (fun s => packH (md5 s)) (getRndIv mtRand ivLen) plainText password)) := rfl

theorem md5d_blocks (encText password : Octets) (ivLen : Nat) :
    md5d encText password ivLen = md5dBlocks (fun s => packH (md5 s))
      ((Base64.decode (eregiReplace md5Key (octets "/") encText)).getD []) password ivLen := rfl

/-! What the loops compute. -/

/-- The key of a block is a hash; an enciphered block goes in front of the state,
    which stays within 512 bytes and the password's length. -/
def hashChain (hash : Octets → Octets) (password : Octets) : Feedback.Chain Octets Octets where
  key iv := hash iv
  next block iv := xor ((block ++ iv).take 512) password

def hashCipher (hash : Octets → Octets) (password iv plainText : Octets) : Octets :=
  let text := fill plainText
  iv ++ (Feedback.encrypt (hashChain hash password) xor ((xor password iv).take 512)
    (Feedback.blocks 16 (text.length / 16) text)).flatten

/-- The key of a block is a digest. -/
def chain (password : Octets) : Feedback.Chain Octets Octets where
  key iv := digest iv
  next block iv := xor ((block ++ iv).take 512) password

/-- The enciphered text, behind its initial vector. -/
def cipher (password iv plainText : Octets) : Octets :=
  let text := fill plainText
  iv ++ (Feedback.encrypt (chain password) xor ((xor password iv).take 512)
    (Feedback.blocks 16 (text.length / 16) text)).flatten

/-- The marker stands in a text, in any case. -/
def HoldsMarker (s : Octets) : Prop := ∃ p, p.map lower = octets "anjuke" ∧ p <:+: s

theorem getRndIv_length (mtRand : Nat → Nat) (ivLen : Nat) : (getRndIv mtRand ivLen).length = ivLen := by
  rw [getRndIv, List.length_map, List.length_range]

theorem xor_length {s t : Octets} (h : s.length ≤ t.length) : (xor s t).length = s.length := by
  rw [xor, List.length_zipWith]
  omega

theorem xor_xor {s t : Octets} (h : s.length ≤ t.length) : xor (xor s t) t = s := by
  induction s generalizing t with
  | nil => rfl
  | cons a s ih =>
    cases t with
    | nil => exact absurd h (Nat.not_succ_le_zero _)
    | cons b t =>
      have hab : a ^^^ b ^^^ b = a := by
        rw [UInt8.xor_assoc, UInt8.xor_self, UInt8.xor_zero]
      exact congrArg₂ List.cons hab (ih (Nat.le_of_succ_le_succ h))

theorem fill_eq (plainText : Octets) :
    ∃ count, fill plainText = plainText ++ 0x13 :: List.replicate count 0 := by
  rw [fill]
  split
  · exact ⟨_, by rw [List.append_assoc]; rfl⟩
  · exact ⟨0, rfl⟩

theorem fill_length (plainText : Octets) :
    (fill plainText).length = (plainText.length + 16) / 16 * 16 := by
  simp only [fill, List.length_append, List.length_singleton]
  split
  · simp only [List.length_append, List.length_singleton, List.length_replicate]
    omega
  · simp only [List.length_append, List.length_singleton]
    omega

section
variable {hash : Octets → Octets} (hhash : ∀ s, (hash s).length = 16) (password : Octets)
include hhash

/-- Every block is as long as a key. -/
theorem block_length {text : Octets} {count : Nat} (htext : text.length = count * 16) :
    ∀ block ∈ Feedback.blocks 16 count text, ∀ iv, (xor block (hash iv)).length = 16 := by
  intro block hblock iv
  have hlength := Feedback.length_of_mem_blocks htext block hblock
  rw [xor_length (by rw [hlength, hhash]), hlength]

theorem decrypt_encrypt {text : Octets} {count : Nat} (htext : text.length = count * 16) (iv : Octets) :
    Feedback.decrypt (hashChain hash password) xor iv
      (Feedback.encrypt (hashChain hash password) xor iv (Feedback.blocks 16 count text)) =
      Feedback.blocks 16 count text := by
  apply Feedback.decrypt_encrypt
  intro block hblock iv
  apply xor_xor
  rw [Feedback.length_of_mem_blocks htext block hblock]
  exact (hhash iv).ge

omit hhash in
theorem md5eBlocks_eq (iv plainText : Octets) :
    md5eBlocks hash iv plainText password = hashCipher hash password iv plainText := by
  have hlength := fill_length plainText
  have hcount : (plainText.length + 1 + 15) / 16 = (plainText.length + 16) / 16 := rfl
  simp only [md5eBlocks, hashCipher, List.length_append, List.length_singleton]
  generalize fill plainText = text at hlength ⊢
  rw [hlength, Nat.mul_div_cancel _ (by decide), ← Feedback.foldl_encrypt,
    ← Feedback.foldl_slices _ _ _ [] (Feedback.length_of_mem_blocks hlength),
    Feedback.flatten_blocks hlength, Feedback.blocks_length, ← hcount]
  rfl

/-- Read back with the initial vector's length, a cipher gives the text and its fill. -/
theorem decipher_cipher (iv plainText : Octets) :
    let encText := hashCipher hash password iv plainText
    ((offsets iv.length encText.length).foldl (fun s i =>
      let (plainText, state) := s
      let block := (encText.drop i).take 16
      (plainText ++ xor block (hash state), xor ((block ++ state).take 512) password))
      ([], (xor password (encText.take iv.length)).take 512)).1 = fill plainText := by
  have hlength := fill_length plainText
  simp only [hashCipher]
  generalize fill plainText = text at hlength ⊢
  generalize (plainText.length + 16) / 16 = count at hlength
  rw [hlength, Nat.mul_div_cancel _ (by decide), List.take_left]
  generalize (xor password iv).take 512 = state
  have hdecrypt := decrypt_encrypt hhash password hlength state
  have hblocks : ∀ block ∈ Feedback.encrypt (hashChain hash password) xor state
      (Feedback.blocks 16 count text), block.length = 16 :=
    Feedback.forall_mem_encrypt (p := fun block : Octets => block.length = 16) (block_length hhash hlength) state
  generalize hsent : Feedback.encrypt (hashChain hash password) xor state (Feedback.blocks 16 count text) = sent
    at hdecrypt hblocks ⊢
  have hsent_length : sent.length = count := by
    rw [← hsent, Feedback.encrypt_length, Feedback.blocks_length]
  have hoffsets : offsets iv.length (iv ++ sent.flatten).length =
      List.range' iv.length sent.length 16 := by
    rw [offsets, List.length_append, Feedback.length_flatten_blocks hblocks]
    congr 1
    omega
  have hfold := @Feedback.foldl_decrypt _ _ (hashChain hash password) xor sent [] state
  rw [hdecrypt, Feedback.flatten_blocks hlength, List.nil_append,
    ← Feedback.foldl_slices _ _ _ iv hblocks] at hfold
  rw [hoffsets]
  exact hfold

end

theorem md5e_eq (mtRand : Nat → Nat) (plainText password : Octets) (ivLen : Nat) :
    md5e mtRand plainText password ivLen =
      eregiReplace (octets "/") md5Key
        (Base64.encode (cipher password (getRndIv mtRand ivLen) plainText)) := by
  have hdigest : (fun s => packH (md5 s)) = digest := funext packH_md5
  rw [md5e_blocks, md5eBlocks_eq, hdigest]
  rfl

/-- An end mark is followed by nothing but zeros. -/
theorem endMark_none {s : Octets} (h : (0x13 : UInt8) ∈ s) (b : UInt8) : endMark (b :: s) = none := by
  have hrest : (0x13 : UInt8) ∈ s.dropWhile (· == 0) := by
    rw [← List.takeWhile_append_dropWhile (p := (· == 0)) (l := s)] at h
    refine (List.mem_append.mp h).resolve_left fun hmem => ?_
    have hzero := List.mem_takeWhile_imp hmem
    cases hzero
  rw [endMark, if_neg]
  rintro ⟨-, hnil | hline⟩
  · rw [hnil] at hrest
    cases hrest
  · rw [hline] at hrest
    revert hrest
    decide

theorem endMark_zeros (count : Nat) :
    endMark (0x13 :: List.replicate count 0) = some (0x13 :: List.replicate count (0 : UInt8)).length := by
  simp [endMark]

theorem strip_fill (plainText : Octets) : substitute endMark [] 0 (fill plainText) = plainText := by
  obtain ⟨count, hfill⟩ := fill_eq plainText
  rw [hfill]
  clear hfill
  induction plainText with
  | nil =>
    have hmatch : endMark ((0x13 :: List.replicate count 0) ++ []) =
        some (0x13 :: List.replicate count (0 : UInt8)).length := by
      rw [List.append_nil, endMark_zeros]
    simpa using @substitute_match _ endMark [] _ (List.cons_ne_nil _ _) _ hmatch
  | cons b plainText ih =>
    rw [List.cons_append, substitute_none (endMark_none (by simp) b), ih]

theorem md5dBlocks_hashCipher {hash : Octets → Octets} (hhash : ∀ s, (hash s).length = 16)
    (password iv plainText : Octets) :
    md5dBlocks hash (hashCipher hash password iv plainText) password iv.length = plainText := by
  have hdecipher := decipher_cipher hhash password iv plainText
  simp only [md5dBlocks] at hdecipher ⊢
  rw [hdecipher, strip_fill]

/-- **The block loops undo each other**, the padding included: whatever the plain text
    ends in, whatever the password, and behind every initial vector. -/
theorem md5dBlocks_md5eBlocks (hash : Octets → Octets) (hhash : ∀ s, (hash s).length = 16)
    (plainText password iv : Octets) :
    md5dBlocks hash (md5eBlocks hash iv plainText password) password iv.length = plainText := by
  rw [md5eBlocks_eq]
  exact md5dBlocks_hashCipher hhash password iv plainText

theorem md5dBlocks_md5eBlocks_end_mark :
    (∀ s, (digest s).length = 16) ∧
      md5dBlocks digest (md5eBlocks digest [7, 8, 9] [0x13, 0] [112, 119]) [112, 119] 3 = [0x13, 0] :=
  ⟨digest_length, md5dBlocks_md5eBlocks digest digest_length [0x13, 0] [112, 119] [7, 8, 9]⟩

/-- What is enciphered is deciphered, when the marker's replacement is undone. -/
theorem md5d_eq {password iv plainText encText : Octets}
    (h : eregiReplace md5Key (octets "/") encText = Base64.encode (cipher password iv plainText)) :
    md5d encText password iv.length = plainText := by
  have hdigest : (fun s => packH (md5 s)) = digest := funext packH_md5
  rw [md5d_blocks, h, Base64.decode_encode, Option.getD_some, hdigest]
  exact md5dBlocks_hashCipher digest_length password iv plainText

theorem lower_slash : ∀ b, lower b = lower 47 → b = 47 :=
  forall_byte (by decide +kernel)

theorem marker_undone_iff (s : Octets) :
    eregiReplace md5Key (octets "/") (eregiReplace (octets "/") md5Key s) = s ↔ ¬ HoldsMarker s := by
  have hkey : md5Key = 65 :: [110, 106, 117, 107, 101] := by
    simp [md5Key, octets]
  have hslash : octets "/" = [47] := by
    simp [octets]
  have hlower : octets "anjuke" = (65 :: [110, 106, 117, 107, 101]).map lower := by
    simp [octets]
    decide
  rw [HoldsMarker, hkey, hslash, hlower]
  exact unmark_mark lower_slash (by decide) (by decide) s

/-- The round trip, and that the text survives the marker, for every plain text, every
    password and whatever the generator gives. -/
theorem md5d_md5e_iff (mtRand : Nat → Nat) (plainText password : Octets) (ivLen : Nat) :
    let encText := Base64.encode (cipher password (getRndIv mtRand ivLen) plainText)
    (md5d (md5e mtRand plainText password ivLen) password ivLen = plainText ∧
      eregiReplace md5Key (octets "/") (eregiReplace (octets "/") md5Key encText) = encText) ↔
      ¬ HoldsMarker encText := by
  intro encText
  rw [marker_undone_iff]
  constructor
  · exact fun h => h.2
  · intro h
    refine ⟨?_, h⟩
    have hround := md5d_eq ((marker_undone_iff encText).mpr h)
    rwa [getRndIv_length, ← md5e_eq] at hround

/-- An initial vector whose base64 text starts with the marker. -/
def markedIv : Octets := [0x02, 0x78, 0xee, 0x91, 0xe0, 0, 0, 0]

theorem md5e_marker_lost :
    let mtRand := fun k => (markedIv.getD k 0).toNat
    md5d (md5e mtRand [97] [112, 119]) [112, 119] ≠ [97] := by
  decide +kernel

end RubbishStore.Util.GlobalFunc
