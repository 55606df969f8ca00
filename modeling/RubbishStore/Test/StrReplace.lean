import RubbishStore.Socket.FastCgi

/- `replacestr` of `str_replace.c` and `tmp_test.c`. The string is put together in a
   block of its own: what stands before the match, the replacement, what stands behind.
   That goes well exactly if the block has a byte more than the string (`assemble_eq`);
   the block that is allocated has not, so the terminator is written behind it, or looked
   for behind it. An access outside the block is `none`. -/
namespace RubbishStore.Test
open RubbishStore.Socket

/-- A NUL-terminated string, without the NUL. -/
structure CStr where
  bytes : Bytes
  plain : 0 ∉ bytes

/-- The first occurrence, as an index. -/
def strstr (s t : CStr) : Option Nat :=
  (List.range (s.bytes.length + 1)).find? fun k => (s.bytes.drop k).take t.bytes.length = t.bytes

/-- `malloc`: NULL, or a block of the size asked for with anything in it. No block is
    larger than PTRDIFF_MAX. -/
structure Allocator where
  malloc : Nat → Option Bytes
  length_eq : ∀ n block, malloc n = some block → block.length = n
  le_max : ∀ n block, malloc n = some block → n ≤ 9223372036854775807

def bzero (block : Bytes) (n : Nat) : Option Bytes :=
  if n ≤ block.length then some (List.replicate n 0 ++ block.drop n) else none

/-- Up to `n` bytes of the string, and zeros if it is shorter. -/
def strncpy (block src : Bytes) (n : Nat) : Option Bytes :=
  if n ≤ block.length then
    some (src.take n ++ List.replicate (n - src.length) 0 ++ block.drop n)
  else none

/-- The string and its terminator, from the first NUL of the block on. -/
def strcat (block src : Bytes) : Option Bytes :=
  let start := (cstring block).length
  if start + src.length < block.length then
    some (block.take start ++ src ++ 0 :: block.drop (start + src.length + 1))
  else none

/-- A `size_t` as an `int`, and back. -/
def throughInt (n : Nat) : Nat := (toInt n % 18446744073709551616).toNat

/-- From `strncpy` on; `p` is the match's index. -/
def assemble (p1 : Bytes) (strbuf sstr dstr : CStr) (p : Nat) : Option Bytes := do
  let p1 ← strncpy p1 strbuf.bytes p
  let p1 ← strcat p1 dstr.bytes
  strcat p1 (strbuf.bytes.drop (p + sstr.bytes.length))

/-- `some none` is the NULL that is returned. -/
def replacestr (A : Allocator) (strbuf sstr dstr : Option CStr) : Option (Option Bytes) :=
  match strbuf, sstr, dstr with
  | some strbuf, some sstr, some dstr =>
    match strstr strbuf sstr with
    | none => some none
    | some p => do
      let len := throughInt (strbuf.bytes.length + dstr.bytes.length - sstr.bytes.length)
      let p1 ← A.malloc len
      let p1 ← bzero p1 len
      let p1 ← assemble p1 strbuf sstr dstr p
      return some p1
  | _, _, _ => some none

/-- The string with the first occurrence, at `p`, replaced. -/
def replaced (strbuf sstr dstr : CStr) (p : Nat) : Bytes :=
  strbuf.bytes.take p ++ dstr.bytes ++ strbuf.bytes.drop (p + sstr.bytes.length)

/-- No access is outside the block, and the block returned holds the string with the
    first occurrence replaced. -/
def Replaces (A : Allocator) (strbuf sstr dstr : CStr) : Prop :=
  ∃ p block, strstr strbuf sstr = some p ∧
    replacestr A (some strbuf) (some sstr) (some dstr) = some (some block) ∧
    0 ∈ block ∧ cstring block = replaced strbuf sstr dstr p

theorem cstring_zeros {s : Bytes} (hs : 0 ∉ s) (k : Nat) : cstring (s ++ List.replicate k 0) = s := by
  have hzeros : (List.replicate k (0 : UInt8)).takeWhile (· ≠ 0) = [] := by
    cases k with
    | zero => rfl
    | succ k => rfl
  rw [cstring, List.takeWhile_append_of_pos, hzeros, List.append_nil]
  intro b hb
  exact decide_eq_true fun heq => hs (heq ▸ hb)

/-- Behind a string that is followed by zeros there has to be room for a terminator. -/
theorem strcat_zeros {s : Bytes} (hs : 0 ∉ s) (src : Bytes) (k : Nat) :
    strcat (s ++ List.replicate k 0) src =
      if src.length < k then some (s ++ src ++ List.replicate (k - src.length) 0) else none := by
  rw [strcat, cstring_zeros hs, List.length_append, List.length_replicate]
  by_cases hroom : src.length < k
  · have hsucc : k - src.length = k - (src.length + 1) + 1 := by omega
    rw [if_pos (by omega), if_pos hroom, List.take_left, Nat.add_assoc, List.drop_length_add_append,
      List.drop_replicate, hsucc, List.replicate_succ]
  · rw [if_neg (by omega), if_neg hroom]

theorem strncpy_zeros {s : Bytes} {p k : Nat} (hp : p ≤ s.length) (hk : p ≤ k) :
    strncpy (List.replicate k 0) s p = some (s.take p ++ List.replicate (k - p) 0) := by
  have hzero : p - s.length = 0 := by omega
  rw [strncpy, List.length_replicate, if_pos hk, List.drop_replicate, hzero, List.replicate_zero,
    List.append_nil]

section
variable {strbuf sstr dstr : CStr} {p : Nat}

theorem strstr_le (h : strstr strbuf sstr = some p) : p + sstr.bytes.length ≤ strbuf.bytes.length := by
  have hrange := List.mem_range.mp (List.mem_of_find?_eq_some h)
  have hfound := List.find?_some h
  have hmatch : (strbuf.bytes.drop p).take sstr.bytes.length = sstr.bytes := of_decide_eq_true hfound
  have hlength := congrArg List.length hmatch
  rw [List.length_take, List.length_drop] at hlength
  omega

theorem strstr_isSome (h : sstr.bytes <:+: strbuf.bytes) : (strstr strbuf sstr).isSome := by
  obtain ⟨before, behind, hsplit⟩ := h
  rw [strstr, List.find?_isSome]
  refine ⟨before.length, ?_, ?_⟩
  · rw [List.mem_range, ← hsplit, List.length_append, List.length_append]
    omega
  · rw [← hsplit, List.append_assoc, List.drop_left, List.take_left]
    exact decide_eq_true rfl

theorem replaced_length (hp : p + sstr.bytes.length ≤ strbuf.bytes.length) :
    (replaced strbuf sstr dstr p).length = strbuf.bytes.length + dstr.bytes.length - sstr.bytes.length := by
  rw [replaced, List.length_append, List.length_append, List.length_take, List.length_drop]
  omega

theorem zero_not_mem_take (s : CStr) (n : Nat) : 0 ∉ s.bytes.take n :=
  fun h => s.plain (List.mem_of_mem_take h)

/-- In a block of zeros: the string is put together if there is a byte more than it has. -/
theorem assemble_eq (hp : p + sstr.bytes.length ≤ strbuf.bytes.length) (k : Nat) :
    assemble (List.replicate k 0) strbuf sstr dstr p =
      let string := replaced strbuf sstr dstr p
      if string.length < k then some (string ++ List.replicate (k - string.length) 0) else none := by
  have hlength : (replaced strbuf sstr dstr p).length =
      p + dstr.bytes.length + (strbuf.bytes.drop (p + sstr.bytes.length)).length := by
    rw [replaced_length hp, List.length_drop]
    omega
  have hfront := zero_not_mem_take strbuf p
  have hboth : 0 ∉ strbuf.bytes.take p ++ dstr.bytes := fun h => (List.mem_append.mp h).elim hfront dstr.plain
  rw [assemble]
  by_cases hk : p ≤ k
  · rw [strncpy_zeros (by omega) hk, Option.bind_eq_bind, Option.bind_some, strcat_zeros hfront]
    by_cases hmid : dstr.bytes.length < k - p
    · rw [if_pos hmid, Option.bind_some, strcat_zeros hboth]
      by_cases hroom : (strbuf.bytes.drop (p + sstr.bytes.length)).length < k - p - dstr.bytes.length
      · rw [if_pos hroom]
        show _ = if _ then _ else _
        rw [if_pos (by omega), hlength, replaced]
        congr 3
        omega
      · rw [if_neg hroom]
        show _ = if _ then _ else _
        rw [if_neg (by omega)]
    · rw [if_neg hmid]
      show none = if _ then _ else _
      rw [if_neg (by omega)]
  · have hnone : strncpy (List.replicate k 0) strbuf.bytes p = none := by
      rw [strncpy, List.length_replicate, if_neg hk]
    rw [hnone]
    show none = if _ then _ else _
    rw [if_neg (by omega)]

/-- No block that can be allocated is larger than the string asked for. -/
theorem malloc_length_le (A : Allocator) {n : Nat} {block : Bytes}
    (h : A.malloc (throughInt n) = some block) : throughInt n ≤ n := by
  have hmax := A.le_max _ _ h
  rw [throughInt, toInt, Int.bmod_def] at hmax ⊢
  split at hmax
  case isTrue hsmall =>
    rw [if_pos hsmall]
    omega
  case isFalse hlarge =>
    rw [if_neg hlarge]
    omega

/-- Wherever the string occurs there is an access outside the block. -/
theorem replacestr_eq_none (A : Allocator) (dstr : CStr) (hp : strstr strbuf sstr = some p) :
    replacestr A (some strbuf) (some sstr) (some dstr) = none := by
  have hle := strstr_le hp
  have hlength : (replaced strbuf sstr dstr p).length = _ := replaced_length hle
  rw [replacestr, hp]
  generalize hn : strbuf.bytes.length + dstr.bytes.length - sstr.bytes.length = n at hlength ⊢
  show ((A.malloc (throughInt n)).bind fun p1 => _) = none
  cases hblock : A.malloc (throughInt n) with
  | none => rfl
  | some block =>
    have hsize := malloc_length_le A hblock
    have hzeros : bzero block (throughInt n) = some (List.replicate (throughInt n) 0) := by
      rw [bzero, A.length_eq _ _ hblock, if_pos (Nat.le_refl _), List.drop_eq_nil_of_le, List.append_nil]
      exact Nat.le_of_eq (A.length_eq _ _ hblock)
    have hoverflow : assemble (List.replicate (throughInt n) 0) strbuf sstr dstr p = none := by
      rw [assemble_eq hle]
      show (if _ then _ else _) = _
      rw [if_neg (by omega)]
    rw [Option.bind_some, hzeros, Option.bind_eq_bind, Option.bind_some, hoverflow]
    rfl

/-- `replacestr` never does what its comment says, whatever the strings: where it finds
    one, it leaves the block. -/
theorem replacestr_overflows (A : Allocator) (strbuf sstr dstr : CStr)
    (hoccurs : sstr.bytes <:+: strbuf.bytes) :
    replacestr A (some strbuf) (some sstr) (some dstr) = none ∧ ¬ Replaces A strbuf sstr dstr := by
  obtain ⟨p, hp⟩ := Option.isSome_iff_exists.mp (strstr_isSome hoccurs)
  have hnone := replacestr_eq_none A dstr hp
  refine ⟨hnone, fun hreplaces => ?_⟩
  obtain ⟨-, block, -, hrun, -⟩ := hreplaces
  rw [hnone] at hrun
  cases hrun

end

/-- An allocator that always has memory, filled with ones. -/
def onesAllocator : Allocator where
  malloc n := if n ≤ 9223372036854775807 then some (List.replicate n 1) else none
  length_eq n block h := by
    split at h
    · rw [← Option.some.inj h, List.length_replicate]
    · cases h
  le_max n block h := by
    split at h
    · assumption
    · cases h

/-- `main` of `str_replace.c`: "hehe_%h", with "liu" for "%h". -/
theorem replacestr_overflows_main :
    let strbuf : CStr := ⟨[104, 101, 104, 101, 95, 37, 104], by decide⟩
    let sstr : CStr := ⟨[37, 104], by decide⟩
    let dstr : CStr := ⟨[108, 105, 117], by decide⟩
    replacestr onesAllocator (some strbuf) (some sstr) (some dstr) = none ∧
      ¬ Replaces onesAllocator strbuf sstr dstr :=
  replacestr_overflows onesAllocator ⟨[104, 101, 104, 101, 95, 37, 104], by decide⟩
    ⟨[37, 104], by decide⟩ ⟨[108, 105, 117], by decide⟩ ⟨[104, 101, 104, 101, 95], [], rfl⟩

/-- "ab", with "c" for "b": the string has two bytes and its block has two. -/
theorem replacestr_two_bytes :
    let strbuf : CStr := ⟨[97, 98], by decide⟩
    let sstr : CStr := ⟨[98], by decide⟩
    let dstr : CStr := ⟨[99], by decide⟩
    sstr.bytes <:+: strbuf.bytes ∧ ¬ Replaces onesAllocator strbuf sstr dstr := by
  refine ⟨⟨[97], [], rfl⟩, fun hreplaces => ?_⟩
  obtain ⟨p, block, -, hrun, -⟩ := hreplaces
  have hnone : replacestr onesAllocator (some ⟨[97, 98], by decide⟩) (some ⟨[98], by decide⟩)
      (some ⟨[99], by decide⟩) = none := by decide
  rw [hnone] at hrun
  cases hrun

end RubbishStore.Test
