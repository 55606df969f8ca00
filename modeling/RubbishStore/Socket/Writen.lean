import RubbishStore.Socket.Unp

/- The loop of `unpv13e/lib/writen.c`. A `write` takes as many of the bytes as it
   likes, or is interrupted, or fails; the loop goes on with what is left. Its
   answers come one by one, so a loop whose answers are used up is still inside
   `write`. In `Unp` one call stands for the whole loop: that is what it comes to
   whenever it returns (`writen_refines`). -/
namespace RubbishStore.Socket
open RubbishStore.Lib

/-- What a `write` answers. -/
inductive WriteAnswer where
  /-- `-1` with `EINTR` -/
  | interrupted
  /-- `-1` with any other error -/
  | failed
  /-- so many bytes, or all that it is given if these are fewer -/
  | accepted (n : Nat)
  deriving DecidableEq, Repr

/-- The bytes that have gone out, and what `writen` has returned, if it has. -/
structure Written where
  sent : Bytes
  returned : Option Int
  deriving DecidableEq, Repr

namespace Written

/-- More bytes have gone out before. -/
def behind (bytes : Bytes) (w : Written) : Written := { w with sent := bytes ++ w.sent }

@[simp] theorem sent_behind (bytes : Bytes) (w : Written) : (w.behind bytes).sent = bytes ++ w.sent := rfl

@[simp] theorem returned_behind (bytes : Bytes) (w : Written) : (w.behind bytes).returned = w.returned := rfl

end Written

/-- The loop, with the bytes that are left of `n`. -/
def writenLoop (n : Nat) (left : Bytes) : List WriteAnswer → Written
  | [] => ⟨[], if left = [] then some n else none⟩
  | answer :: answers =>
    if left = [] then ⟨[], some n⟩
    else
      match answer with
      | .interrupted => writenLoop n left answers
      | .failed => ⟨[], some (-1)⟩
      | .accepted k =>
        -- `write` returns 0
        if k = 0 then ⟨[], some (-1)⟩ else (writenLoop n (left.drop k) answers).behind (left.take k)

/-- `writen` -/
def writenBytes (bytes : Bytes) (answers : List WriteAnswer) : Written := writenLoop bytes.length bytes answers

/-- `Writen`, when `writen` has returned: each `write` by itself is not in the trace. -/
def Written.wrap (w : Written) (sys : Sys) (fd : Fd) (bytes : Bytes) : Except Exit Sys :=
  let sys' := if bytes = [] then sys else sys.call (.write fd w.sent)
  if w.returned = some (bytes.length : Int) then .ok sys' else .error ⟨some "writen error", sys'⟩

section
variable {n : Nat} {left bytes : Bytes} {answers : List WriteAnswer}

theorem writenLoop_nil (n : Nat) (answers : List WriteAnswer) : writenLoop n [] answers = ⟨[], some n⟩ := by
  cases answers <;> rfl

/-- It returns what was asked for when nothing is left, and `-1` or nothing yet when something is. -/
theorem writenLoop_spec (n : Nat) (left : Bytes) (answers : List WriteAnswer) :
    (writenLoop n left answers).sent = left ∧ (writenLoop n left answers).returned = some (n : Int) ∨
      (∃ b rest, (writenLoop n left answers).sent ++ b :: rest = left) ∧
        ((writenLoop n left answers).returned = some (-1) ∨ (writenLoop n left answers).returned = none) := by
  induction answers generalizing left with
  | nil =>
    cases left with
    | nil => exact .inl ⟨rfl, rfl⟩
    | cons b rest => exact .inr ⟨⟨b, rest, rfl⟩, .inr rfl⟩
  | cons answer answers ih =>
    cases left with
    | nil => exact .inl ⟨rfl, rfl⟩
    | cons b rest =>
      have hne := List.cons_ne_nil b rest
      cases answer with
      | interrupted =>
        rw [writenLoop, if_neg hne]
        exact ih (b :: rest)
      | failed =>
        rw [writenLoop, if_neg hne]
        exact .inr ⟨⟨b, rest, rfl⟩, .inl rfl⟩
      | accepted k =>
        rw [writenLoop, if_neg hne]
        by_cases hk : k = 0
        · simp only [if_pos hk]
          exact .inr ⟨⟨b, rest, rfl⟩, .inl trivial⟩
        · simp only [if_neg hk, Written.sent_behind, Written.returned_behind]
          -- what went out at first, and then as the loop goes on
          rcases ih ((b :: rest).drop k) with ⟨hall, hreturned⟩ | ⟨⟨b', rest', hsome⟩, hreturned⟩
          · left
            rw [hall, List.take_append_drop]
            exact ⟨rfl, hreturned⟩
          · right
            refine ⟨⟨b', rest', ?_⟩, hreturned⟩
            rw [List.append_assoc, hsome, List.take_append_drop]

/-- Interruptions leave no trace. -/
theorem writenLoop_interrupted (n : Nat) (left : Bytes) (answers : List WriteAnswer) :
    writenLoop n left (answers.filter (· ≠ .interrupted)) = writenLoop n left answers := by
  induction answers generalizing left with
  | nil => rfl
  | cons answer answers ih =>
    by_cases hnil : left = []
    · rw [hnil, writenLoop_nil, writenLoop_nil]
    · cases answer with
      | interrupted =>
        rw [List.filter_cons_of_neg (by decide), ih, writenLoop, if_neg hnil]
      | failed => rw [List.filter_cons_of_pos (by decide), writenLoop, writenLoop]
      | accepted k =>
        show writenLoop n left (.accepted k :: answers.filter (· ≠ .interrupted)) = _
        rw [writenLoop, writenLoop]
        simp only [ih]

end

/-- Whatever the answers: the bytes go out in order, each once; it returns their
    number exactly if all have gone out, and `-1` only with some left; interruptions
    change nothing. When it returns, `Writen` has the effect of the one call that
    stands for it. -/
theorem writen_refines (bytes : Bytes) (answers : List WriteAnswer) :
    let w := writenBytes bytes answers
    w.sent <+: bytes ∧ (w.returned = some (bytes.length : Int) ↔ w.sent = bytes) ∧
      (w.returned = some (-1) → w.sent ≠ bytes) ∧
      writenBytes bytes (answers.filter (· ≠ .interrupted)) = w ∧
      (w.returned ≠ none → ∀ (K : Kernel) (sys : Sys) (fd : Fd), fd ∈ sys.opened →
        K.written sys.trace.length = w.sent.length → w.wrap sys fd bytes = writen K sys fd bytes) := by
  intro w
  have hminus : (some (-1) : Option Int) ≠ some (bytes.length : Int) := by
    intro heq
    have hlt := Option.some.inj heq
    omega
  rcases writenLoop_spec bytes.length bytes answers with ⟨hall, hreturned⟩ | ⟨⟨b, rest, hsome⟩, hreturned⟩
  · have hsent : w.sent = bytes := hall
    have hreturned : w.returned = some (bytes.length : Int) := hreturned
    refine ⟨hsent ▸ List.prefix_rfl, iff_of_true hreturned hsent, ?_, writenLoop_interrupted _ _ _, ?_⟩
    · intro hfailed
      exact absurd (hfailed.symm.trans hreturned) hminus
    · intro _ K sys fd hopen hwritten
      rw [hsent] at hwritten
      rw [Written.wrap, if_pos hreturned, writen, send, if_pos hopen, if_pos hwritten.ge, hwritten, hsent,
        List.take_length]
      split
      · rfl
      · rfl
  · have hsent : w.sent ++ b :: rest = bytes := hsome
    have hshort : w.sent ≠ bytes := by
      intro heq
      rw [heq] at hsent
      exact absurd (List.append_right_eq_self.mp hsent) (List.cons_ne_nil b rest)
    have hreturned : w.returned = some (-1) ∨ w.returned = none := hreturned
    have hnot : w.returned ≠ some (bytes.length : Int) := by
      rcases hreturned with hreturned | hreturned
      · exact hreturned ▸ hminus
      · exact hreturned ▸ (Option.some_ne_none _).symm
    refine ⟨⟨b :: rest, hsent⟩, iff_of_false hnot hshort, fun _ => hshort, writenLoop_interrupted _ _ _, ?_⟩
    intro _ K sys fd hopen hwritten
    have hlt : w.sent.length < bytes.length := by
      rw [← hsent, List.length_append, List.length_cons]
      omega
    have htake : bytes.take w.sent.length = w.sent := by
      rw [← hsent, List.take_left]
    have hne : bytes ≠ [] := by
      intro hnil
      rw [hnil] at hlt
      exact Nat.not_lt_zero _ hlt
    rw [Written.wrap, if_neg hnot, if_neg hne, writen, if_neg hne, send, if_pos hopen, hwritten,
      if_neg (Nat.not_le.mpr hlt), htake]

end RubbishStore.Socket
