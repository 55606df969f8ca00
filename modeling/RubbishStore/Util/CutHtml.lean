import RubbishStore.Lib.Nested
import RubbishStore.Lib.PhpText

/- `Util_PublicMethods::cutHTML`. The loop has no bound on its index: it goes on until
   enough is visible, a byte up to 127 at a time, or a higher one with the two behind it.
   The bytes of a tag and of an entity count nothing, so that `strip_tags`, which leaves
   the entities, may promise more than there is to see. Behind the end the text reads as
   empty strings; they count, unless a tag or an entity is open, and then the loop never
   ends. `visible` says what some pieces show; the scan stays inside the text exactly if
   a beginning of it shows enough (`scan_stays_iff`). -/
namespace RubbishStore.Util.CutHtml
open RubbishStore.Lib RubbishStore.Lib.PhpText

/-- `$p_mixData[$i]`; behind the end it is the empty string. -/
def charAt (mixData : Octets) (i : Nat) : Octets := substr mixData i 1

structure Scan where
  i : Nat := 0
  strCut : Octets := []
  bolInHTML : Bool := false
  bolInTag : Bool := false
  bolRecordTag : Bool := false
  bolNeedMinus : Bool := false
  arrTags : List Octets := []
  strSingleTag : Octets := []
  intLength : Int := 0
  /-- The positions that have been read. -/
  read : List Nat := []

def arrSelfCloseTag : List Octets := [octets "br", octets "hr", octets "input"]

/-- `$arrTags` with a tag that has begun. -/
def opening (arrTags : List Octets) (strSingleTag : Octets) : List Octets :=
  if strSingleTag = [] ∨ arrSelfCloseTag.contains strSingleTag then arrTags else arrTags ++ [strSingleTag]

/-- The first statement of the body: what the character opens or closes. -/
def mark (mixData : Octets) (st : Scan) : Scan :=
  let c := charAt mixData st.i
  let st := { st with read := st.i :: st.read }
  if c = [60] then { st with bolInTag := true }
  else if c = [38] then { st with bolInHTML := true }
  else if c = [62] ∧ st.bolInTag then
    { st with
      bolInTag := false
      bolRecordTag := false
      bolNeedMinus := true
      arrTags :=
        if st.strSingleTag.take 1 = [47] then st.arrTags.dropLast
        else opening st.arrTags st.strSingleTag
      strSingleTag := [] }
  else if c = [59] ∧ st.bolInHTML then { st with bolInHTML := false }
  else if c = [32] ∧ st.bolRecordTag then
    { st with
      bolRecordTag := false
      arrTags := opening st.arrTags st.strSingleTag
      strSingleTag := [] }
  else st

/-- The second one: the character is taken, and counted if it shows. -/
def take (mixData : Octets) (st : Scan) : Scan :=
  let c := charAt mixData st.i
  if 127 < ord c then
    { st with
      i := st.i + 2
      strCut := st.strCut ++ c ++ charAt mixData (st.i + 1) ++ charAt mixData (st.i + 2)
      intLength := if st.bolInTag ∨ st.bolInHTML then st.intLength else st.intLength + 3
      read := (st.i + 2) :: (st.i + 1) :: st.i :: st.read }
  else
    { st with
      strCut := st.strCut ++ c
      intLength := if st.bolInTag ∨ st.bolInHTML then st.intLength else st.intLength + 1
      strSingleTag :=
        if (st.bolInTag ∨ st.bolInHTML) ∧ st.bolRecordTag then st.strSingleTag ++ c else st.strSingleTag
      read := st.i :: st.read }

/-- The third one: behind a `<` the name of a tag begins, and a `>` is not counted. -/
def settle (mixData : Octets) (st : Scan) : Scan :=
  let c := charAt mixData st.i
  let st := { st with read := st.i :: st.read }
  if c = [60] then { st with bolRecordTag := true }
  else if st.bolNeedMinus then { st with intLength := st.intLength - 1, bolNeedMinus := false }
  else st

/-- The body, and `++$i`. -/
def round (mixData : Octets) (st : Scan) : Scan :=
  let st := settle mixData (take mixData (mark mixData st))
  { st with i := st.i + 1 }

/-- The loop, for less than `fuel` rounds. -/
def scanLoop (mixData : Octets) (room : Int) : Nat → Scan → Option Scan
  | 0, _ => none
  | fuel + 1, st => if st.intLength < room then scanLoop mixData room fuel (round mixData st) else some st

/-- The text that has been taken, with the tags closed that are open. -/
def closed (st : Scan) (strLast : Octets) : Octets :=
  st.strCut ++ octets "</" ++ (octets "></").intercalate st.arrTags.reverse ++ octets ">" ++ strLast

/-- `cutHTML` of a text, and the positions that the scan has read. -/
def cutText (stripTags : Octets → Octets) (intLength : Int) (strLast : Octets) (fuel : Nat)
    (mixData : Octets) : Option (Octets × List Nat) :=
  if (stripTags mixData).length ≤ intLength then some (mixData, [])
  else (scanLoop mixData (intLength - strLast.length) fuel {}).map fun st => (closed st strLast, st.read)

/-- In an array every text is cut for itself. -/
def cutHTML {K : Type} (stripTags : Octets → Octets) (mixData : Nested K Octets) (intLength : Int)
    (fuel : Nat) (strLast : Octets := octets "...") : Nested K (Option (Octets × List Nat)) :=
  mixData.map (cutText stripTags intLength strLast fuel)

/-- The scan has ended, and has read nothing but bytes of the text. -/
def Inside (mixData : Octets) (outcome : Option (Octets × List Nat)) : Prop :=
  ∃ result read, outcome = some (result, read) ∧ ∀ i ∈ read, i < mixData.length

/-- So it is for every text. -/
def Stays {K : Type} (stripTags : Octets → Octets) (mixData : Nested K Octets) (intLength : Int)
    (strLast : Octets) : Prop :=
  ∃ fuel, List.Forall₂ Inside mixData.scalars (cutHTML stripTags mixData intLength fuel strLast).scalars

/-! What a text shows. -/

/-- A byte up to 127, or a higher one with two more. -/
structure Piece where
  lead : UInt8
  more : Octets
  length_more : more.length = if 127 < lead then 2 else 0

def Piece.bytes (u : Piece) : Octets := u.lead :: u.more

def text (us : List Piece) : Octets := us.flatMap Piece.bytes

/-- The last one of two marks is the one that opens. -/
def opened (o c : UInt8) (us : List Piece) : Bool :=
  (us.map Piece.lead).reverse.find? (fun b => b = o || b = c) = some o

def inTag (us : List Piece) : Bool := opened 60 62 us

def inEntity (us : List Piece) : Bool := opened 38 59 us

/-- What a piece adds: its bytes, unless a tag or an entity is open with it; and the end of
    a tag takes one away. -/
def gain (before : List Piece) (u : Piece) : Int :=
  (if inTag (before ++ [u]) ∨ inEntity (before ++ [u]) then 0 else u.bytes.length) -
    (if u.lead = 62 ∧ inTag before then 1 else 0)

def shown (before : List Piece) : List Piece → Int
  | [] => 0
  | u :: us => gain before u + shown (before ++ [u]) us

def visible (us : List Piece) : Int := shown [] us

theorem shown_concat (before us : List Piece) (u : Piece) :
    shown before (us ++ [u]) = shown before us + gain (before ++ us) u := by
  induction us generalizing before with
  | nil => rw [List.nil_append, shown, shown, shown, List.append_nil, Int.add_comm]
  | cons v us ih =>
    rw [List.cons_append, shown, ih, shown, ← List.append_cons, Int.add_assoc]

theorem visible_concat (us : List Piece) (u : Piece) : visible (us ++ [u]) = visible us + gain us u :=
  shown_concat [] us u

theorem opened_concat (o c : UInt8) (us : List Piece) (u : Piece) :
    opened o c (us ++ [u]) = if u.lead = o then true else if u.lead = c then false else opened o c us := by
  by_cases ho : u.lead = o
  · simp [opened, ho]
  · by_cases hc : u.lead = c
    · have hne : c ≠ o := hc ▸ ho
      simp [opened, hc, hne]
    · simp [opened, ho, hc]

theorem text_append (us vs : List Piece) : text (us ++ vs) = text us ++ text vs := List.flatMap_append

theorem text_cons (u : Piece) (us : List Piece) : text (u :: us) = u.bytes ++ text us := rfl

theorem text_concat (us : List Piece) (u : Piece) : text (us ++ [u]) = text us ++ u.bytes := by
  rw [text_append, text_cons]
  exact congrArg (text us ++ ·) (List.append_nil _)

theorem Piece.length_bytes (u : Piece) : u.bytes.length = u.more.length + 1 := rfl

/-! What a round reads, and what it does with a piece. -/

section
variable (mixData : Octets) (st : Scan)

/-- How many bytes a round takes besides the first. -/
def extent (i : Nat) : Nat := if 127 < ord (charAt mixData i) then 2 else 0

theorem mark_i : (mark mixData st).i = st.i := by
  unfold mark
  dsimp only
  split_ifs <;> rfl

theorem mark_intLength : (mark mixData st).intLength = st.intLength := by
  unfold mark
  dsimp only
  split_ifs <;> rfl

theorem mark_read : (mark mixData st).read = st.i :: st.read := by
  unfold mark
  dsimp only
  split_ifs <;> rfl

theorem take_i : (take mixData st).i = st.i + extent mixData st.i := by
  unfold take extent
  dsimp only
  split_ifs <;> rfl

theorem mem_read_take (j : Nat) :
    j ∈ (take mixData st).read ↔ j ∈ st.read ∨ (st.i ≤ j ∧ j ≤ st.i + extent mixData st.i) := by
  unfold take extent
  by_cases hwide : 127 < ord (charAt mixData st.i)
  · rw [if_pos hwide, if_pos hwide]
    simp only [List.mem_cons]
    grind
  · rw [if_neg hwide, if_neg hwide]
    simp only [List.mem_cons]
    grind

theorem settle_i : (settle mixData st).i = st.i := by
  unfold settle
  dsimp only
  split_ifs <;> rfl

theorem settle_read : (settle mixData st).read = st.i :: st.read := by
  unfold settle
  dsimp only
  split_ifs <;> rfl

theorem round_i : (round mixData st).i = st.i + extent mixData st.i + 1 := by
  rw [round]
  dsimp only
  rw [settle_i, take_i, mark_i]

theorem round_intLength : (round mixData st).intLength = (settle mixData (take mixData (mark mixData st))).intLength := by
  rw [round]

theorem round_flags :
    (round mixData st).bolInTag = (settle mixData (take mixData (mark mixData st))).bolInTag ∧
    (round mixData st).bolInHTML = (settle mixData (take mixData (mark mixData st))).bolInHTML ∧
    (round mixData st).bolNeedMinus = (settle mixData (take mixData (mark mixData st))).bolNeedMinus := by
  rw [round]
  exact ⟨rfl, rfl, rfl⟩

/-- A round reads what it takes. -/
theorem mem_read_round (j : Nat) :
    j ∈ (round mixData st).read ↔ j ∈ st.read ∨ (st.i ≤ j ∧ j ≤ st.i + extent mixData st.i) := by
  rw [round]
  dsimp only
  rw [settle_read, List.mem_cons, mem_read_take, take_i, mark_i, mark_read, List.mem_cons]
  grind

theorem take_flags : (take mixData st).bolInTag = st.bolInTag ∧ (take mixData st).bolInHTML = st.bolInHTML ∧
    (take mixData st).bolNeedMinus = st.bolNeedMinus := by
  unfold take
  dsimp only
  split_ifs <;> exact ⟨rfl, rfl, rfl⟩

theorem take_intLength : (take mixData st).intLength =
    if st.bolInTag ∨ st.bolInHTML then st.intLength else st.intLength + (extent mixData st.i + 1 : Nat) := by
  unfold take extent
  dsimp only
  split_ifs <;> rfl

theorem settle_flags : (settle mixData st).bolInTag = st.bolInTag ∧ (settle mixData st).bolInHTML = st.bolInHTML := by
  unfold settle
  dsimp only
  split_ifs <;> exact ⟨rfl, rfl⟩

variable {mixData st}

/-- What waits to be taken away is taken away, unless a `<` comes between. -/
theorem settle_minus (h : st.bolNeedMinus = true → charAt mixData st.i ≠ [60]) :
    (settle mixData st).bolNeedMinus = false ∧
      (settle mixData st).intLength = st.intLength - if st.bolNeedMinus then 1 else 0 := by
  unfold settle
  by_cases hopen : charAt mixData st.i = [60]
  · have hminus : st.bolNeedMinus = false := Bool.eq_false_iff.mpr fun hminus => h hminus hopen
    rw [if_pos hopen, if_neg (Bool.eq_false_iff.mp hminus), Int.sub_zero]
    exact ⟨hminus, rfl⟩
  · rw [if_neg hopen]
    by_cases hminus : st.bolNeedMinus = true
    · rw [if_pos hminus, if_pos hminus]
      exact ⟨rfl, rfl⟩
    · rw [if_neg hminus, if_neg hminus, Int.sub_zero]
      exact ⟨Bool.eq_false_iff.mpr hminus, rfl⟩

variable {b : UInt8}

theorem mark_bolInTag (hb : charAt mixData st.i = [b]) : (mark mixData st).bolInTag =
    if b = 60 then true else if b = 62 then false else st.bolInTag := by
  unfold mark
  simp only [hb, List.cons.injEq, and_true]
  split_ifs <;> simp_all

theorem mark_bolInHTML (hb : charAt mixData st.i = [b]) : (mark mixData st).bolInHTML =
    if b = 38 then true else if b = 59 then false else st.bolInHTML := by
  unfold mark
  simp only [hb, List.cons.injEq, and_true]
  split_ifs <;> simp_all

theorem mark_bolNeedMinus (hb : charAt mixData st.i = [b]) (h : st.bolNeedMinus = false) :
    (mark mixData st).bolNeedMinus = (decide (b = 62) && st.bolInTag) := by
  unfold mark
  simp only [hb, List.cons.injEq, and_true]
  split_ifs <;> simp_all

end

/-- The scan is behind these pieces. -/
structure Behind (us : List Piece) (st : Scan) : Prop where
  i_eq : st.i = (text us).length
  intLength_eq : st.intLength = visible us
  bolInTag_eq : st.bolInTag = inTag us
  bolInHTML_eq : st.bolInHTML = inEntity us
  bolNeedMinus_eq : st.bolNeedMinus = false
  read_lt : ∀ i ∈ st.read, i < (text us).length

theorem behind_start : Behind [] {} where
  i_eq := rfl
  intLength_eq := rfl
  bolInTag_eq := rfl
  bolInHTML_eq := rfl
  bolNeedMinus_eq := rfl
  read_lt := fun _ hi => absurd hi List.not_mem_nil

section
variable {mixData : Octets} {us : List Piece} {st : Scan}

theorem charAt_behind (hst : Behind us st) {b : UInt8} {rest : Octets} (h : mixData = text us ++ b :: rest) :
    charAt mixData st.i = [b] := by
  rw [charAt, substr, h, hst.i_eq, List.drop_left]
  rfl

theorem extent_piece (hst : Behind us st) {u : Piece} {rest : Octets}
    (h : mixData = text us ++ (u.bytes ++ rest)) : extent mixData st.i = u.more.length := by
  rw [extent, charAt_behind hst h, u.length_more]
  rfl

/-- A round goes from behind some pieces to behind the next one. -/
theorem Behind.round (hst : Behind us st) {u : Piece} {rest : Octets}
    (h : mixData = text us ++ (u.bytes ++ rest)) : Behind (us ++ [u]) (round mixData st) := by
  have hb : charAt mixData st.i = [u.lead] := charAt_behind hst h
  have hextent := extent_piece hst h
  have hlength : (text (us ++ [u])).length = st.i + u.more.length + 1 := by
    rw [text_concat, List.length_append, u.length_bytes, hst.i_eq, Nat.add_assoc]
  have htag : (mark mixData st).bolInTag = inTag (us ++ [u]) := by
    rw [mark_bolInTag hb, inTag, opened_concat, hst.bolInTag_eq, inTag]
  have hentity : (mark mixData st).bolInHTML = inEntity (us ++ [u]) := by
    rw [mark_bolInHTML hb, inEntity, opened_concat, hst.bolInHTML_eq, inEntity]
  have hneed := mark_bolNeedMinus hb hst.bolNeedMinus_eq
  obtain ⟨htag', hentity', hneed'⟩ := take_flags mixData (mark mixData st)
  -- what closes a tag is a single byte, and no `<`
  have hminus : (take mixData (mark mixData st)).bolNeedMinus = true →
      charAt mixData (take mixData (mark mixData st)).i ≠ [60] := by
    intro htrue
    rw [hneed', hneed, Bool.and_eq_true, decide_eq_true_eq] at htrue
    have hsingle : u.more.length = 0 := by
      rw [u.length_more, htrue.1]
      rfl
    rw [take_i, mark_i, hextent, hsingle, Nat.add_zero, hb, htrue.1]
    decide
  obtain ⟨hnone, hcount⟩ := settle_minus hminus
  obtain ⟨htag'', hentity''⟩ := settle_flags mixData (take mixData (mark mixData st))
  obtain ⟨hround, hround', hround''⟩ := round_flags mixData st
  refine ⟨?_, ?_, ?_, ?_, hround''.trans hnone, ?_⟩
  · rw [round_i, hextent, hlength]
  · rw [round_intLength, hcount, take_intLength, htag, hentity, mark_intLength, mark_i, hextent, hneed', hneed,
      hst.intLength_eq, hst.bolInTag_eq, visible_concat, gain, u.length_bytes]
    simp only [Bool.and_eq_true, decide_eq_true_eq]
    split_ifs <;> omega
  · rw [hround, htag'', htag', htag]
  · rw [hround', hentity'', hentity', hentity]
  · intro j hj
    rw [mem_read_round, hextent] at hj
    rcases hj with hold | hnew
    · have := hst.read_lt j hold
      rw [← hst.i_eq] at this
      omega
    · omega

/-- Where a round would read inside the text there is a whole piece. -/
theorem exists_piece (hst : Behind us st) {rest : Octets} (h : mixData = text us ++ rest)
    (hread : st.i + extent mixData st.i < mixData.length) : ∃ u more, rest = Piece.bytes u ++ more := by
  have hlength : mixData.length = st.i + rest.length := by rw [h, List.length_append, hst.i_eq]
  cases rest with
  | nil =>
    rw [hlength, List.length_nil] at hread
    omega
  | cons b rest =>
    have hextent : extent mixData st.i = if 127 < b then 2 else 0 := by
      rw [extent, charAt_behind hst h]
      rfl
    rw [hlength, hextent, List.length_cons] at hread
    have hmore : (rest.take (if 127 < b then 2 else 0)).length = if 127 < b then 2 else 0 := by
      rw [List.length_take]
      omega
    refine ⟨⟨b, _, hmore⟩, rest.drop (if 127 < b then 2 else 0), ?_⟩
    rw [Piece.bytes, List.cons_append, List.take_append_drop]

end

/-- What has been read stays read. -/
theorem read_scanLoop {mixData : Octets} {room : Int} {fuel : Nat} {st st' : Scan}
    (h : scanLoop mixData room fuel st = some st') : ∀ j ∈ st.read, j ∈ st'.read := by
  induction fuel generalizing st with
  | zero => cases h
  | succ fuel ih =>
    intro j hj
    rw [scanLoop] at h
    split at h
    · exact ih h j ((mem_read_round mixData st j).mpr (.inl hj))
    · rw [← Option.some.inj h]
      exact hj

/-- A text that shows enough further on is left in time. -/
theorem scanLoop_ends {mixData : Octets} {room : Int} (us vs : List Piece) {st : Scan} (hst : Behind us st)
    (h : text (us ++ vs) <+: mixData) (hroom : room ≤ visible (us ++ vs)) :
    ∃ fuel st', scanLoop mixData room fuel st = some st' ∧ ∀ j ∈ st'.read, j < mixData.length := by
  induction vs generalizing us st with
  | nil =>
    rw [List.append_nil] at h hroom
    refine ⟨1, st, ?_, fun j hj => Nat.lt_of_lt_of_le (hst.read_lt j hj) h.length_le⟩
    rw [scanLoop, if_neg (by rw [hst.intLength_eq]; omega)]
  | cons v vs ih =>
    by_cases hmore : st.intLength < room
    · obtain ⟨rest, hrest⟩ := h
      have hsplit : mixData = text us ++ (v.bytes ++ (text vs ++ rest)) := by
        rw [← hrest, text_append, text_cons, List.append_assoc, List.append_assoc]
      have hnext := ih (us ++ [v]) (hst.round hsplit) (by rw [← List.append_cons]; exact ⟨rest, hrest⟩)
        (by rw [← List.append_cons]; exact hroom)
      obtain ⟨fuel, st', hloop, hread⟩ := hnext
      exact ⟨fuel + 1, st', by rw [scanLoop, if_pos hmore]; exact hloop, hread⟩
    · have hfront : text us <+: mixData := by
        refine List.IsPrefix.trans ?_ h
        rw [text, text, List.flatMap_append]
        exact List.prefix_append _ _
      exact ⟨1, st, by rw [scanLoop, if_neg hmore],
        fun j hj => Nat.lt_of_lt_of_le (hst.read_lt j hj) hfront.length_le⟩

/-- And a scan that ends inside has seen enough. -/
theorem visible_of_scanLoop {mixData : Octets} {room : Int} {fuel : Nat} {us : List Piece} {st st' : Scan}
    (hst : Behind us st) {rest : Octets} (h : mixData = text us ++ rest)
    (hloop : scanLoop mixData room fuel st = some st') (hread : ∀ j ∈ st'.read, j < mixData.length) :
    ∃ vs, text vs <+: mixData ∧ room ≤ visible vs := by
  induction fuel generalizing us st rest with
  | zero => cases hloop
  | succ fuel ih =>
    rw [scanLoop] at hloop
    split at hloop
    · have hinside : st.i + extent mixData st.i < mixData.length :=
        hread _ (read_scanLoop hloop _ ((mem_read_round mixData st _).mpr
          (.inr ⟨Nat.le_add_right _ _, Nat.le_refl _⟩)))
      obtain ⟨u, more, hu⟩ := exists_piece hst h hinside
      rw [hu] at h
      have hnext : mixData = text (us ++ [u]) ++ more := by rw [h, text_concat, List.append_assoc]
      exact ih (hst.round h) hnext hloop
    · next hmore =>
      refine ⟨us, h ▸ List.prefix_append _ _, ?_⟩
      rw [← hst.intLength_eq]
      exact Int.not_lt.mp hmore

/-- The scan ends inside the text exactly if a beginning of it shows enough. -/
theorem scan_stays_iff (mixData : Octets) (room : Int) :
    (∃ fuel st, scanLoop mixData room fuel {} = some st ∧ ∀ j ∈ st.read, j < mixData.length) ↔
      ∃ us, text us <+: mixData ∧ room ≤ visible us := by
  constructor
  · intro hends
    obtain ⟨fuel, st, hloop, hread⟩ := hends
    exact visible_of_scanLoop behind_start rfl hloop hread
  · intro hshows
    obtain ⟨us, hfront, hroom⟩ := hshows
    exact scanLoop_ends [] us behind_start hfront hroom

/-! Behind the end. -/

/-- A round with a tag or an entity open does nothing there but go on. -/
theorem round_past_end {mixData : Octets} {st : Scan} (hend : mixData.length ≤ st.i)
    (hopen : st.bolInTag ∨ st.bolInHTML) (hminus : st.bolNeedMinus = false) :
    (round mixData st).i = st.i + 1 ∧ (round mixData st).intLength = st.intLength ∧
      (round mixData st).bolInTag = st.bolInTag ∧ (round mixData st).bolInHTML = st.bolInHTML ∧
      (round mixData st).bolNeedMinus = false := by
  have hnone : charAt mixData st.i = [] := by
    rw [charAt, substr, List.drop_eq_nil_of_le hend, List.take_nil]
  have hmark : mark mixData st = { st with read := st.i :: st.read } := by
    unfold mark
    simp only [hnone, List.nil_eq, List.cons_ne_nil, false_and, if_false]
  have htake : ¬127 < ord [] := by decide
  rw [round, hmark]
  unfold take settle
  simp only [hnone, if_neg htake, if_pos hopen, hminus, List.nil_eq, List.cons_ne_nil, if_false,
    Bool.false_eq_true, and_self]

theorem scanLoop_past_end {mixData : Octets} {room : Int} (fuel : Nat) {st : Scan} (hend : mixData.length ≤ st.i)
    (hopen : st.bolInTag ∨ st.bolInHTML) (hminus : st.bolNeedMinus = false) (hroom : st.intLength < room) :
    scanLoop mixData room fuel st = none := by
  induction fuel generalizing st with
  | zero => rfl
  | succ fuel ih =>
    obtain ⟨hi, hlength, htag, hentity, hneed⟩ := round_past_end hend hopen hminus
    rw [scanLoop, if_pos hroom]
    exact ih (by omega) (by rw [htag, hentity]; exact hopen) hneed (by rw [hlength]; exact hroom)

/-- Where a text shows too little and leaves a tag or an entity open, the scan never ends. -/
theorem scanLoop_endless {mixData : Octets} {room : Int} (us vs : List Piece) (h : text (us ++ vs) = mixData)
    (hopen : inTag (us ++ vs) ∨ inEntity (us ++ vs)) (hfew : ∀ ps, text ps <+: mixData → visible ps < room)
    {st : Scan} (hst : Behind us st) (fuel : Nat) : scanLoop mixData room fuel st = none := by
  induction vs generalizing us st fuel with
  | nil =>
    rw [List.append_nil] at h hopen
    have hend : mixData.length ≤ st.i := by rw [← h, hst.i_eq]
    have hroom : st.intLength < room := by
      rw [hst.intLength_eq]
      exact hfew us (h ▸ List.prefix_refl _)
    rw [← hst.bolInTag_eq, ← hst.bolInHTML_eq] at hopen
    exact scanLoop_past_end fuel hend hopen hst.bolNeedMinus_eq hroom
  | cons v vs ih =>
    cases fuel with
    | zero => rfl
    | succ fuel =>
      have hsplit : mixData = text us ++ (v.bytes ++ text vs) := by
        rw [← h, text_append, text_cons]
      have hroom : st.intLength < room := by
        rw [hst.intLength_eq]
        exact hfew us (hsplit ▸ List.prefix_append _ _)
      rw [List.append_cons] at h hopen
      rw [scanLoop, if_pos hroom]
      exact ih (us ++ [v]) h hopen (hst.round hsplit) fuel

/-- How a scan ends does not depend on the fuel. -/
theorem scanLoop_mono {mixData : Octets} {room : Int} {fuel fuel' : Nat} {st st' : Scan}
    (h : scanLoop mixData room fuel st = some st') (hle : fuel ≤ fuel') :
    scanLoop mixData room fuel' st = some st' := by
  induction fuel generalizing fuel' st with
  | zero => cases h
  | succ fuel ih =>
    obtain ⟨fuel', rfl⟩ := Nat.exists_eq_add_one.mpr (Nat.lt_of_lt_of_le fuel.succ_pos hle)
    rw [scanLoop] at h ⊢
    split at h
    · next hmore =>
      rw [if_pos hmore]
      exact ih h (Nat.le_of_succ_le_succ hle)
    · next hmore =>
      rw [if_neg hmore]
      exact h

section
variable {stripTags : Octets → Octets} {intLength : Int} {strLast mixData : Octets}

theorem cutText_mono {fuel fuel' : Nat} {result : Octets × List Nat}
    (h : cutText stripTags intLength strLast fuel mixData = some result) (hle : fuel ≤ fuel') :
    cutText stripTags intLength strLast fuel' mixData = some result := by
  rw [cutText] at h ⊢
  split at h
  · next hshort =>
    rw [if_pos hshort]
    exact h
  · next hlong =>
    obtain ⟨st, hloop, hst⟩ := Option.map_eq_some_iff.mp h
    rw [if_neg hlong, scanLoop_mono hloop hle, Option.map_some, hst]

/-- A text that is too long is cut inside exactly if a beginning of whole pieces shows as
    many bytes as there is room for before the ellipsis. -/
theorem cutText_inside_iff :
    (∃ fuel, Inside mixData (cutText stripTags intLength strLast fuel mixData)) ↔
      (stripTags mixData).length ≤ intLength ∨
      ∃ us, text us <+: mixData ∧ intLength - strLast.length ≤ visible us := by
  rw [← scan_stays_iff]
  by_cases hshort : (stripTags mixData).length ≤ intLength
  · refine iff_of_true ⟨0, mixData, [], ?_, fun _ hi => absurd hi List.not_mem_nil⟩ (.inl hshort)
    rw [cutText, if_pos hshort]
  · constructor
    · intro hinside
      obtain ⟨fuel, result, read, hresult, hread⟩ := hinside
      rw [cutText, if_neg hshort, Option.map_eq_some_iff] at hresult
      obtain ⟨st, hloop, hst⟩ := hresult
      rw [Prod.mk.injEq] at hst
      exact .inr ⟨fuel, st, hloop, hst.2 ▸ hread⟩
    · intro hcond
      obtain ⟨fuel, st, hloop, hread⟩ := hcond.resolve_left hshort
      refine ⟨fuel, closed st strLast, st.read, ?_, hread⟩
      rw [cutText, if_neg hshort, hloop]
      rfl

/-- What ends for each text ends for all with fuel enough for the longest scan. -/
theorem exists_fuel {texts : List Octets}
    (h : ∀ s ∈ texts, ∃ fuel, Inside s (cutText stripTags intLength strLast fuel s)) :
    ∃ fuel, ∀ s ∈ texts, Inside s (cutText stripTags intLength strLast fuel s) := by
  induction texts with
  | nil => exact ⟨0, fun _ hs => absurd hs List.not_mem_nil⟩
  | cons s texts ih =>
    obtain ⟨fuel, hfuel⟩ := ih fun t ht => h t (List.mem_cons_of_mem s ht)
    obtain ⟨fuel', hfuel'⟩ := h s List.mem_cons_self
    have hmore : ∀ {t f}, f ≤ max fuel fuel' → Inside t (cutText stripTags intLength strLast f t) →
        Inside t (cutText stripTags intLength strLast (max fuel fuel') t) := by
      intro t f hf hinside
      obtain ⟨result, read, hresult, hread⟩ := hinside
      exact ⟨result, read, cutText_mono hresult hf, hread⟩
    refine ⟨max fuel fuel', fun t ht => ?_⟩
    rcases List.mem_cons.mp ht with rfl | ht
    · exact hmore (Nat.le_max_right _ _) hfuel'
    · exact hmore (Nat.le_max_left _ _) (hfuel t ht)

/-- With a tag or an entity open at the end of a text that shows too little, `cutHTML` does
    not come back. -/
theorem cutText_endless (hlong : intLength < (stripTags mixData).length) {us : List Piece}
    (h : text us = mixData) (hopen : inTag us ∨ inEntity us)
    (hfew : ∀ ps, text ps <+: mixData → visible ps < intLength - strLast.length) (fuel : Nat) :
    cutText stripTags intLength strLast fuel mixData = none := by
  rw [cutText, if_neg (Int.not_le.mpr hlong), scanLoop_endless [] us h hopen hfew behind_start]
  rfl

end

/-- `cutHTML` ends and reads nothing behind the end of a text exactly if each text without
    its tags is short enough as it is, or has a beginning of whole pieces that shows as many
    bytes as there is room for before the ellipsis. -/
theorem cutHTML_stays_iff {K : Type} (stripTags : Octets → Octets) (mixData : Nested K Octets)
    (intLength : Int) (strLast : Octets) :
    Stays stripTags mixData intLength strLast ↔
      ∀ s ∈ mixData.scalars, (stripTags s).length ≤ intLength ∨
        ∃ us, text us <+: s ∧ intLength - strLast.length ≤ visible us := by
  constructor
  · intro hstays s hs
    obtain ⟨fuel, hall⟩ := hstays
    exact cutText_inside_iff.mp ⟨fuel, Nested.forall₂_scalars_map.mp hall s hs⟩
  · intro hcond
    obtain ⟨fuel, hall⟩ := exists_fuel fun s hs => cutText_inside_iff.mpr (hcond s hs)
    exact ⟨fuel, Nested.forall₂_scalars_map.mpr hall⟩

/-- Of eight bytes that are two entities, three are to show; the scan takes the third from
    behind the end. -/
theorem cutHTML_reads_past_end :
    ¬∀ (stripTags : Octets → Octets) (mixData : Octets) (intLength : Int) (strLast : Octets),
      Stays stripTags (.scalar mixData : Nested Nat Octets) intLength strLast := by
  intro hall
  obtain ⟨fuel, hinside⟩ := hall (fun s => s) [38, 108, 116, 59, 38, 108, 116, 59] 6 [46, 46, 46]
  obtain ⟨result, read, hresult, hread⟩ := (List.forall₂_cons.mp hinside).1
  have hends : (cutText (fun s => s) 6 [46, 46, 46] 20 [38, 108, 116, 59, 38, 108, 116, 59]).any
      (fun o => o.2.contains 8) = true := by decide
  obtain ⟨o, ho, height⟩ := (Option.any_eq_true _ _).mp hends
  have hsame : o = (result, read) := Option.some.inj
    ((cutText_mono ho (Nat.le_max_left 20 fuel)).symm.trans (cutText_mono hresult (Nat.le_max_right 20 fuel)))
  rw [hsame] at height
  exact Nat.lt_irrefl 8 (hread 8 (List.contains_iff_mem.mp height))

end RubbishStore.Util.CutHtml
