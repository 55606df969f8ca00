import RubbishStore.Lib.Text
import Mathlib.Data.List.Range

/- Cipher feedback: each block of a text is combined with a key block that a running
   state gives, and the state goes on from the enciphered block, which the reader of
   the cipher has as well. If combining twice with one key block gives a block back,
   deciphering undoes enciphering (`decrypt_encrypt`). A loop over positions of a
   text that lie one block apart is a fold over its blocks (`foldl_slices`). -/
namespace RubbishStore.Lib.Feedback

variable {Block State : Type}

/-- A key block from the state, and the state behind an enciphered block. -/
structure Chain (Block State : Type) where
  key : State → Block
  next : Block → State → State

section
variable (chain : Chain Block State) (mix : Block → Block → Block)

def encrypt : State → List Block → List Block
  | _, [] => []
  | state, plain :: rest =>
    let block := mix plain (chain.key state)
    block :: encrypt (chain.next block state) rest

def decrypt : State → List Block → List Block
  | _, [] => []
  | state, block :: rest => mix block (chain.key state) :: decrypt (chain.next block state) rest

variable {chain mix}

theorem encrypt_length (state : State) (text : List Block) :
    (encrypt chain mix state text).length = text.length := by
  induction text generalizing state with
  | nil => rfl
  | cons plain text ih => rw [encrypt, List.length_cons, List.length_cons, ih]

theorem forall_mem_encrypt {p : Block → Prop} {text : List Block}
    (h : ∀ plain ∈ text, ∀ state, p (mix plain (chain.key state))) (state : State) :
    ∀ block ∈ encrypt chain mix state text, p block := by
  induction text generalizing state with
  | nil => exact List.forall_mem_nil p
  | cons plain text ih =>
    obtain ⟨hplain, htext⟩ := List.forall_mem_cons.mp h
    rw [encrypt, List.forall_mem_cons]
    exact ⟨hplain state, ih htext _⟩

theorem decrypt_encrypt {text : List Block}
    (h : ∀ plain ∈ text, ∀ state, mix (mix plain (chain.key state)) (chain.key state) = plain)
    (state : State) : decrypt chain mix state (encrypt chain mix state text) = text := by
  induction text generalizing state with
  | nil => rfl
  | cons plain text ih =>
    obtain ⟨hplain, htext⟩ := List.forall_mem_cons.mp h
    rw [encrypt, decrypt, hplain state, ih htext]

/-! A loop that appends to a text and carries the state. -/

variable {α : Type} {chain : Chain (List α) State} {mix : List α → List α → List α}

theorem foldl_encrypt (blocks : List (List α)) (done : List α) (state : State) :
    (blocks.foldl (fun s plain =>
      let block := mix plain (chain.key s.2)
      (s.1 ++ block, chain.next block s.2)) (done, state)).1 =
      done ++ (encrypt chain mix state blocks).flatten := by
  induction blocks generalizing done state with
  | nil => exact (List.append_nil done).symm
  | cons plain blocks ih => rw [List.foldl_cons, ih, encrypt, List.flatten_cons, List.append_assoc]

theorem foldl_decrypt (blocks : List (List α)) (done : List α) (state : State) :
    (blocks.foldl (fun s block =>
      (s.1 ++ mix block (chain.key s.2), chain.next block s.2)) (done, state)).1 =
      done ++ (decrypt chain mix state blocks).flatten := by
  induction blocks generalizing done state with
  | nil => exact (List.append_nil done).symm
  | cons block blocks ih => rw [List.foldl_cons, ih, decrypt, List.flatten_cons, List.append_assoc]

end

/-! Texts in blocks. -/

section
variable {α β : Type}

/-- The slice of `size` elements from each position `size` apart is the next block. -/
theorem foldl_slices {size : Nat} (f : β → List α → β) (blocks : List (List α)) (b : β)
    (pre : List α) (h : ∀ block ∈ blocks, block.length = size) :
    (List.range' pre.length blocks.length size).foldl
      (fun b i => f b (((pre ++ blocks.flatten).drop i).take size)) b = blocks.foldl f b := by
  induction blocks generalizing b pre with
  | nil => rfl
  | cons block blocks ih =>
    obtain ⟨hblock, hblocks⟩ := List.forall_mem_cons.mp h
    have hslice : ((pre ++ (block :: blocks).flatten).drop pre.length).take size = block := by
      rw [List.drop_left, List.flatten_cons, ← hblock, List.take_left]
    have hrest := ih (f b block) (pre ++ block) hblocks
    rw [List.length_append, hblock, List.append_assoc] at hrest
    rw [List.length_cons, List.range'_succ, List.foldl_cons, List.foldl_cons, hslice, ← hrest,
      List.flatten_cons]

/-- The first `count` blocks of a text. -/
def blocks (size : Nat) : Nat → List α → List (List α)
  | 0, _ => []
  | count + 1, s => s.take size :: blocks size count (s.drop size)

theorem blocks_length (size count : Nat) (s : List α) : (blocks size count s).length = count := by
  induction count generalizing s with
  | zero => rfl
  | succ count ih => rw [blocks, List.length_cons, ih]

theorem flatten_blocks {size count : Nat} {s : List α} (h : s.length = count * size) :
    (blocks size count s).flatten = s := by
  induction count generalizing s with
  | zero =>
    rw [Nat.zero_mul, List.length_eq_zero_iff] at h
    rw [h]
    rfl
  | succ count ih =>
    have hdrop : (s.drop size).length = count * size := by
      rw [List.length_drop, h, Nat.succ_mul, Nat.add_sub_cancel]
    rw [blocks, List.flatten_cons, ih hdrop, List.take_append_drop]

theorem length_of_mem_blocks {size count : Nat} {s : List α} (h : s.length = count * size) :
    ∀ block ∈ blocks size count s, block.length = size := by
  induction count generalizing s with
  | zero => exact List.forall_mem_nil _
  | succ count ih =>
    rw [Nat.succ_mul] at h
    have hdrop : (s.drop size).length = count * size := by
      rw [List.length_drop, h, Nat.add_sub_cancel]
    have htake : (s.take size).length = size := by
      rw [List.length_take]
      omega
    rw [blocks, List.forall_mem_cons]
    exact ⟨htake, ih hdrop⟩

theorem length_flatten_blocks {size : Nat} {blocks : List (List α)}
    (h : ∀ block ∈ blocks, block.length = size) :
    blocks.flatten.length = blocks.length * size := by
  rw [List.length_flatten, List.map_congr_left h, List.map_const', List.sum_replicate_nat]

end

end RubbishStore.Lib.Feedback
