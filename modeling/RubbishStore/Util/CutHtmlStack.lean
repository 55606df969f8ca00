import RubbishStore.Util.CutHtml

/- What the scan of `cutHTML` knows of tags. Two flags, the name that is being recorded and
   the stack follow the bytes one at a time (`TagState.next`), as long as no higher byte
   takes a `<` or a `>` along with it: behind some pieces of the text they are what a fold
   over the pieces makes of them (`Knows`). A scan that ends in the text is behind the first
   pieces that show enough (`scanLoop_knows`, `scanLoop_first`). -/
namespace RubbishStore.Util.CutHtml
open RubbishStore.Lib RubbishStore.Lib.PhpText

structure TagState where
  bolInTag : Bool := false
  bolRecordTag : Bool := false
  arrTags : List Octets := []
  strSingleTag : Octets := []

def Scan.tagState (st : Scan) : TagState := ⟨st.bolInTag, st.bolRecordTag, st.arrTags, st.strSingleTag⟩

/-- The end of a tag. -/
def ended (arrTags : List Octets) (strSingleTag : Octets) : List Octets :=
  if strSingleTag.take 1 = [47] then arrTags.dropLast else opening arrTags strSingleTag

namespace TagState

/-- A byte up to 127. -/
def next (τ : TagState) (b : UInt8) : TagState :=
  if b = 60 then
    { τ with
      bolInTag := true
      bolRecordTag := true
      strSingleTag := if τ.bolRecordTag then τ.strSingleTag ++ [b] else τ.strSingleTag }
  else if b = 62 ∧ τ.bolInTag then ⟨false, false, ended τ.arrTags τ.strSingleTag, []⟩
  else if b = 32 ∧ τ.bolRecordTag then ⟨τ.bolInTag, false, opening τ.arrTags τ.strSingleTag, []⟩
  else if τ.bolRecordTag then { τ with strSingleTag := τ.strSingleTag ++ [b] }
  else τ

def piece (τ : TagState) (u : Piece) : TagState := if 127 < u.lead then τ else τ.next u.lead

/-- A name is recorded in tags only. -/
def Sound (τ : TagState) : Prop := τ.bolRecordTag = true → τ.bolInTag = true

theorem Sound.next {τ : TagState} (h : τ.Sound) (b : UInt8) : (τ.next b).Sound := by
  rw [TagState.next]
  split
  · exact fun _ => rfl
  · split
    · exact fun hrecord => nomatch hrecord
    · split
      · exact fun hrecord => nomatch hrecord
      · split
        · exact h
        · exact h

theorem Sound.piece {τ : TagState} (h : τ.Sound) (u : Piece) : (τ.piece u).Sound := by
  rw [TagState.piece]
  split
  · exact h
  · exact h.next u.lead

end TagState

/-- No end of a tag is taken along with a higher byte. -/
def Piece.Aligned (u : Piece) : Prop := 60 ∉ u.more ∧ 62 ∉ u.more

def Aligned (us : List Piece) : Prop := ∀ u ∈ us, u.Aligned

def TagState.run (τ : TagState) (us : List Piece) : TagState := us.foldl TagState.piece τ

def tagState (us : List Piece) : TagState := TagState.run {} us

theorem TagState.run_append (τ : TagState) (us vs : List Piece) : τ.run (us ++ vs) = (τ.run us).run vs :=
  List.foldl_append

theorem TagState.run_cons (τ : TagState) (u : Piece) (us : List Piece) : τ.run (u :: us) = (τ.piece u).run us :=
  rfl

theorem tagState_concat (us : List Piece) (u : Piece) : tagState (us ++ [u]) = (tagState us).piece u :=
  TagState.run_append {} us [u]

theorem sound_tagState (us : List Piece) : (tagState us).Sound := by
  induction us using List.reverseRecOn with
  | nil => exact fun h => nomatch h
  | append_singleton us u ih =>
    rw [tagState_concat]
    exact ih.piece u

/-! One round. -/

section
variable {mixData : Octets} {st : Scan} {b : UInt8}

theorem mark_tagState_wide (hb : charAt mixData st.i = [b]) (hwide : 127 < b) :
    (mark mixData st).tagState = st.tagState := by
  have hne : ∀ c : UInt8, c ≤ 127 → b ≠ c := by
    intro c hc he
    rw [he] at hwide
    exact absurd hwide (UInt8.not_lt.mpr hc)
  unfold mark
  simp only [hb, List.cons.injEq, and_true, hne 60 (by decide), hne 38 (by decide), hne 62 (by decide),
    hne 59 (by decide), hne 32 (by decide), false_and, if_false]
  rfl

theorem take_tagState_wide (hb : charAt mixData st.i = [b]) (hwide : 127 < b) :
    (take mixData st).tagState = st.tagState := by
  have hord : 127 < ord (charAt mixData st.i) := by rw [hb]; exact hwide
  unfold take
  rw [if_pos hord]
  rfl

theorem settle_tagState_other (h : charAt mixData st.i ≠ [60]) : (settle mixData st).tagState = st.tagState := by
  unfold settle
  rw [if_neg h]
  split <;> rfl

/-- What the first statement makes of the tags. -/
def TagState.marked (τ : TagState) (b : UInt8) : TagState :=
  if b = 60 then { τ with bolInTag := true }
  else if b = 62 ∧ τ.bolInTag then ⟨false, false, ended τ.arrTags τ.strSingleTag, []⟩
  else if b = 32 ∧ τ.bolRecordTag then ⟨τ.bolInTag, false, opening τ.arrTags τ.strSingleTag, []⟩
  else τ

theorem TagState.Sound.marked {τ : TagState} (h : τ.Sound) (b : UInt8) : (τ.marked b).Sound := by
  rw [TagState.marked]
  split
  · exact fun _ => rfl
  · split
    · exact fun hrecord => nomatch hrecord
    · split
      · exact fun hrecord => nomatch hrecord
      · exact h

theorem mark_tagState (hb : charAt mixData st.i = [b]) :
    (mark mixData st).tagState = st.tagState.marked b := by
  unfold mark
  simp only [hb, List.cons.injEq, and_true]
  by_cases hless : b = 60
  · subst hless
    rfl
  · by_cases hamp : b = 38
    · subst hamp
      rfl
    · by_cases hsemi : b = 59
      · subst hsemi
        cases hhtml : st.bolInHTML <;> rfl
      · rw [TagState.marked]
        simp only [hless, hamp, hsemi, if_false, false_and]
        split
        · next hgt => exact (if_pos hgt).symm
        · next hgt =>
          refine Eq.trans ?_ (if_neg hgt).symm
          split
          · next hblank => exact (if_pos hblank).symm
          · next hblank => exact (if_neg hblank).symm

theorem take_tagState (hb : charAt mixData st.i = [b]) (hnarrow : ¬ 127 < b) (hsound : st.tagState.Sound) :
    (take mixData st).tagState =
      if st.tagState.bolRecordTag then { st.tagState with strSingleTag := st.strSingleTag ++ [b] }
      else st.tagState := by
  have hord : ¬ 127 < ord (charAt mixData st.i) := by rw [hb]; exact hnarrow
  unfold take
  rw [if_neg hord]
  by_cases hrecord : st.bolRecordTag = true
  · have hopen : (st.bolInTag = true ∨ st.bolInHTML = true) ∧ st.bolRecordTag = true :=
      ⟨.inl (hsound hrecord), hrecord⟩
    simp only [Scan.tagState, if_pos hopen, hb]
    exact (if_pos hrecord).symm
  · have hclosed : ¬ ((st.bolInTag = true ∨ st.bolInHTML = true) ∧ st.bolRecordTag = true) :=
      fun h => hrecord h.2
    simp only [Scan.tagState, if_neg hclosed]
    exact (if_neg hrecord).symm

theorem settle_tagState_less (h : charAt mixData st.i = [60]) :
    (settle mixData st).tagState = { st.tagState with bolRecordTag := true } := by
  unfold settle
  rw [if_pos h]
  rfl

theorem round_tagState (mixData : Octets) (st : Scan) :
    (round mixData st).tagState = (settle mixData (take mixData (mark mixData st))).tagState := by
  rw [round, Scan.tagState, Scan.tagState]

theorem round_strCut (mixData : Octets) (st : Scan) :
    (round mixData st).strCut = (settle mixData (take mixData (mark mixData st))).strCut := by
  rw [round]

theorem tagState_round_narrow (hb : charAt mixData st.i = [b]) (hnarrow : ¬ 127 < b)
    (hsound : st.tagState.Sound) : (round mixData st).tagState = st.tagState.next b := by
  have hmark : (mark mixData st).tagState = st.tagState.marked b := mark_tagState hb
  have hsound' : (mark mixData st).tagState.Sound := hmark ▸ hsound.marked b
  have hb' : charAt mixData (mark mixData st).i = [b] := by rw [mark_i, hb]
  have htake := take_tagState hb' hnarrow hsound'
  have hsingle : (mark mixData st).strSingleTag = (mark mixData st).tagState.strSingleTag := rfl
  have hlast : charAt mixData (take mixData (mark mixData st)).i = [b] := by
    have hord : ¬ 127 < ord [b] := hnarrow
    rw [take_i, mark_i, extent, hb, if_neg hord]
    exact hb
  rw [hsingle, hmark] at htake
  by_cases hless : b = 60
  · subst hless
    rw [round_tagState, settle_tagState_less hlast, htake]
    cases hrecord : st.tagState.bolRecordTag <;> simp [TagState.marked, TagState.next, hrecord]
  · have hother : charAt mixData (take mixData (mark mixData st)).i ≠ [60] := by
      rw [hlast]
      exact fun he => hless (List.cons.inj he).1
    rw [round_tagState, settle_tagState_other hother, htake, TagState.marked, TagState.next, if_neg hless,
      if_neg hless]
    by_cases hgt : b = 62 ∧ st.tagState.bolInTag
    · rw [if_pos hgt, if_pos hgt]
      rfl
    · rw [if_neg hgt, if_neg hgt]
      by_cases hblank : b = 32 ∧ st.tagState.bolRecordTag
      · rw [if_pos hblank, if_pos hblank]
        rfl
      · rw [if_neg hblank, if_neg hblank]

/-- The text that has been taken is always a beginning of the text. -/
theorem strCut_round (h : st.strCut = mixData.take st.i) :
    (round mixData st).strCut = mixData.take (round mixData st).i := by
  have hchar : ∀ i, mixData.take i ++ charAt mixData i = mixData.take (i + 1) := fun i => List.take_add.symm
  have hround : (round mixData st).strCut = (take mixData (mark mixData st)).strCut := by
    rw [round_strCut]
    unfold settle
    dsimp only
    split_ifs <;> rfl
  have hmark : (mark mixData st).strCut = st.strCut := by
    unfold mark
    dsimp only
    split_ifs <;> rfl
  rw [hround, round_i, extent]
  unfold take
  rw [mark_i]
  by_cases hwide : 127 < ord (charAt mixData st.i)
  · rw [if_pos hwide, if_pos hwide]
    dsimp only
    rw [hmark, h, hchar, hchar, hchar]
  · rw [if_neg hwide, if_neg hwide]
    dsimp only
    rw [hmark, h, hchar]

end

/-! Runs. -/

/-- What the scan holds behind some pieces. -/
structure Knows (mixData : Octets) (us : List Piece) (st : Scan) : Prop where
  behind : Behind us st
  strCut_eq : st.strCut = mixData.take st.i
  tagState_eq : Aligned us → st.tagState = tagState us

section
variable {mixData : Octets} {us : List Piece} {st : Scan}

theorem knows_start (mixData : Octets) : Knows mixData [] {} where
  behind := behind_start
  strCut_eq := rfl
  tagState_eq := fun _ => rfl

theorem Knows.round (hst : Knows mixData us st) {u : Piece} {rest : Octets}
    (h : mixData = text us ++ (u.bytes ++ rest)) : Knows mixData (us ++ [u]) (round mixData st) where
  behind := hst.behind.round h
  strCut_eq := strCut_round hst.strCut_eq
  tagState_eq := by
    intro haligned
    have hus : Aligned us := fun v hv => haligned v (List.mem_append_left _ hv)
    have hu : u.Aligned := haligned u (List.mem_append_right _ List.mem_cons_self)
    have hb : charAt mixData st.i = [u.lead] := charAt_behind hst.behind h
    have hb' : charAt mixData (mark mixData st).i = [u.lead] := by rw [mark_i, hb]
    have hbefore := hst.tagState_eq hus
    rw [tagState_concat, TagState.piece, ← hbefore]
    split
    · next hwide =>
      have hlast : charAt mixData (take mixData (mark mixData st)).i ≠ [60] := by
        have hextent := extent_piece hst.behind h
        have hlength : u.more.length = 2 := by rw [u.length_more, if_pos hwide]
        rw [take_i, mark_i, hextent, hlength, hst.behind.i_eq, charAt, substr, h,
          ← List.drop_drop, List.drop_left, Piece.bytes]
        obtain ⟨b, c, hmore⟩ := List.length_eq_two.mp hlength
        rw [hmore]
        intro he
        apply hu.1
        rw [hmore, (List.cons.inj he).1]
        exact List.mem_cons_of_mem b List.mem_cons_self
      rw [round_tagState, settle_tagState_other hlast, take_tagState_wide hb' hwide, mark_tagState_wide hb hwide]
    · next hnarrow =>
      exact tagState_round_narrow hb hnarrow (hbefore ▸ sound_tagState us)

end

theorem i_le_scanLoop {mixData : Octets} {room : Int} {fuel : Nat} {st st' : Scan}
    (h : scanLoop mixData room fuel st = some st') : st.i ≤ st'.i := by
  induction fuel generalizing st with
  | zero => cases h
  | succ fuel ih =>
    rw [scanLoop] at h
    split at h
    · have hnext := ih h
      rw [round_i] at hnext
      omega
    · rw [Option.some.inj h]

theorem strCut_scanLoop {mixData : Octets} {room : Int} {fuel : Nat} {st st' : Scan}
    (hst : st.strCut = mixData.take st.i) (h : scanLoop mixData room fuel st = some st') :
    st'.strCut = mixData.take st'.i := by
  induction fuel generalizing st with
  | zero => cases h
  | succ fuel ih =>
    rw [scanLoop] at h
    split at h
    · exact ih (strCut_round hst) h
    · rw [← Option.some.inj h]
      exact hst

/-- Some pieces show enough, and no beginning of them does. -/
def FirstToShow (room : Int) (us : List Piece) : Prop :=
  room ≤ visible us ∧ ∀ vs, vs <+: us → vs ≠ us → visible vs < room

/-- A scan that is not behind the end of the text is behind its first pieces to show enough. -/
theorem scanLoop_knows {mixData : Octets} {room : Int} {fuel : Nat} {us : List Piece} {st st' : Scan}
    (hst : Knows mixData us st) {rest : Octets} (h : mixData = text us ++ rest)
    (hfew : ∀ vs, vs <+: us → vs ≠ us → visible vs < room)
    (hloop : scanLoop mixData room fuel st = some st') (hend : st'.i ≤ mixData.length) :
    ∃ vs, text vs <+: mixData ∧ Knows mixData vs st' ∧ FirstToShow room vs := by
  induction fuel generalizing us st rest with
  | zero => cases hloop
  | succ fuel ih =>
    rw [scanLoop] at hloop
    split at hloop
    · next hmore =>
      have hinside : st.i + extent mixData st.i < mixData.length := by
        have hnext := i_le_scanLoop hloop
        rw [round_i] at hnext
        omega
      obtain ⟨u, more, hu⟩ := exists_piece hst.behind h hinside
      rw [hu] at h
      have hnext : mixData = text (us ++ [u]) ++ more := by rw [h, text_concat, List.append_assoc]
      refine ih (hst.round h) hnext ?_ hloop
      intro vs hvs hne
      rcases List.prefix_concat_iff.mp hvs with heq | hvs
      · exact absurd heq hne
      · by_cases hsame : vs = us
        · rw [hsame, ← hst.behind.intLength_eq]
          exact hmore
        · exact hfew vs hvs hsame
    · next hmore =>
      have hsame : st = st' := Option.some.inj hloop
      rw [← hsame]
      refine ⟨us, h ▸ List.prefix_append _ _, hst, ?_, hfew⟩
      rw [← hst.behind.intLength_eq]
      exact Int.not_lt.mp hmore

/-- And the scan comes there. -/
theorem scanLoop_first {mixData : Octets} {room : Int} (us vs : List Piece) {st : Scan}
    (hst : Knows mixData us st) (h : text (us ++ vs) <+: mixData) (hfirst : FirstToShow room (us ++ vs)) :
    ∃ fuel st', scanLoop mixData room fuel st = some st' ∧ Knows mixData (us ++ vs) st' := by
  induction vs generalizing us st with
  | nil =>
    rw [List.append_nil] at hfirst ⊢
    refine ⟨1, st, ?_, hst⟩
    rw [scanLoop, if_neg (by rw [hst.behind.intLength_eq]; exact Int.not_lt.mpr hfirst.1)]
  | cons v vs ih =>
    obtain ⟨rest, hrest⟩ := h
    have hsplit : mixData = text us ++ (v.bytes ++ (text vs ++ rest)) := by
      rw [← hrest, text_append, text_cons, List.append_assoc, List.append_assoc]
    have hmore : st.intLength < room := by
      rw [hst.behind.intLength_eq]
      refine hfirst.2 us (List.prefix_append _ _) fun he => ?_
      exact List.cons_ne_nil v vs (List.self_eq_append_right.mp he)
    rw [List.append_cons] at hfirst hrest ⊢
    obtain ⟨fuel, st', hloop, hknows⟩ := ih (us ++ [v]) (hst.round hsplit) ⟨rest, hrest⟩ hfirst
    exact ⟨fuel + 1, st', by rw [scanLoop, if_pos hmore]; exact hloop, hknows⟩

/-! The pieces of a tag. -/

theorem Piece.bytes_narrow {u : Piece} (h : ¬ 127 < u.lead) : u.bytes = [u.lead] := by
  have hmore : u.more = [] := List.eq_nil_of_length_eq_zero (by rw [u.length_more, if_neg h])
  rw [Piece.bytes, hmore]

theorem TagState.piece_narrow {u : Piece} (h : ¬ 127 < u.lead) (τ : TagState) : τ.piece u = τ.next u.lead :=
  if_neg h

theorem Aligned.tail {u : Piece} {us : List Piece} (h : Aligned (u :: us)) : Aligned us :=
  fun v hv => h v (List.mem_cons_of_mem u hv)

/-- A `<` begins a piece, and is all of it. -/
theorem exists_less {us : List Piece} {front back : Octets} (haligned : Aligned us)
    (h : text us = front ++ 60 :: back) :
    ∃ vs u ws, us = vs ++ u :: ws ∧ text vs = front ∧ u.lead = 60 ∧ text ws = back := by
  induction us generalizing front with
  | nil => exact absurd h.symm (List.append_ne_nil_of_right_ne_nil front (List.cons_ne_nil 60 back))
  | cons u us ih =>
    have hu := haligned u List.mem_cons_self
    rw [text_cons] at h
    obtain ⟨front', hfront, hrest⟩ | ⟨c, hc, hrest⟩ := List.append_eq_append_iff.mp h
    · obtain ⟨vs, v, ws, rfl, hvs, hv, hws⟩ := ih haligned.tail hrest
      exact ⟨u :: vs, v, ws, rfl, by rw [text_cons, hvs, hfront], hv, hws⟩
    · cases c with
      | nil =>
        rw [List.append_nil] at hc
        rw [List.nil_append] at hrest
        have htail : text us = [] ++ 60 :: back := hrest.symm
        obtain ⟨vs, v, ws, rfl, hvs, hv, hws⟩ := ih haligned.tail htail
        exact ⟨u :: vs, v, ws, rfl, by rw [text_cons, hvs, List.append_nil, hc], hv, hws⟩
      | cons b c =>
        rw [List.cons_append] at hrest
        obtain ⟨rfl, hback⟩ := List.cons.inj hrest
        cases front with
        | nil =>
          have hlead : u.lead = 60 := (List.cons.inj hc).1
          have hnarrow : ¬ 127 < u.lead := by rw [hlead]; decide
          have hone := Piece.bytes_narrow hnarrow
          rw [hc, List.nil_append] at hone
          have hnone : c = [] := (List.cons.inj hone).2
          exact ⟨[], u, us, rfl, rfl, hlead, by rw [hback, hnone, List.nil_append]⟩
        | cons a front =>
          have hmore : u.more = front ++ 60 :: c := (List.cons.inj hc).2
          exact absurd (hmore ▸ List.mem_append_right front List.mem_cons_self) hu.1

/-- Pieces that end with a `>`: the first one is that, or belongs to what is before. -/
theorem ends_cases {u : Piece} {us : List Piece} {body : Octets} (haligned : Aligned (u :: us))
    (h : text (u :: us) = body ++ [62]) :
    (us = [] ∧ body = [] ∧ u.lead = 62) ∨ ∃ body', text us = body' ++ [62] ∧ body = u.bytes ++ body' := by
  have hu := haligned u List.mem_cons_self
  rw [text_cons] at h
  obtain hnil | ⟨s, x, hs⟩ := List.eq_nil_or_concat (text us)
  · have hus : us = [] := by
      cases us with
      | nil => rfl
      | cons v us => exact absurd hnil (List.cons_ne_nil _ _)
    rw [hnil, List.append_nil, Piece.bytes] at h
    cases body with
    | nil => exact .inl ⟨hus, rfl, (List.cons.inj h).1⟩
    | cons b body =>
      have hmore : u.more = body ++ [62] := (List.cons.inj h).2
      exact absurd (hmore ▸ List.mem_append_right body List.mem_cons_self) hu.2
  · rw [hs, List.concat_eq_append, ← List.append_assoc] at h
    obtain ⟨hbody, hx⟩ := List.append_inj' h rfl
    exact .inr ⟨s, by rw [hs, List.concat_eq_append, hx], hbody.symm⟩

theorem TagState.next_gt (record : Bool) (arrTags : List Octets) (w : Octets) :
    TagState.next ⟨true, record, arrTags, w⟩ 62 = ⟨false, false, ended arrTags w, []⟩ := by
  rw [TagState.next, if_neg (by decide), if_pos ⟨rfl, rfl⟩]

theorem TagState.next_blank (inTag : Bool) (arrTags : List Octets) (w : Octets) :
    TagState.next ⟨inTag, true, arrTags, w⟩ 32 = ⟨inTag, false, opening arrTags w, []⟩ := by
  rw [TagState.next, if_neg (by decide), if_neg fun h => absurd h.1 (by decide), if_pos ⟨rfl, rfl⟩]

theorem opening_nil (arrTags : List Octets) : opening arrTags [] = arrTags := if_pos (.inl rfl)

theorem ended_nil (arrTags : List Octets) : ended arrTags [] = arrTags := by
  have hno : ¬ ([] : Octets).take 1 = [47] := by decide
  rw [ended, if_neg hno, opening_nil]

/-- Where no name is recorded, nothing happens up to the next `<`. -/
theorem piece_quiet {u : Piece} (h : u.lead ≠ 60) (inTag : Bool) (arrTags : List Octets) :
    ∃ inTag', TagState.piece ⟨inTag, false, arrTags, []⟩ u = ⟨inTag', false, arrTags, []⟩ := by
  rw [TagState.piece]
  split
  · exact ⟨inTag, rfl⟩
  · rw [TagState.next, if_neg h]
    split
    · exact ⟨false, by rw [ended_nil]⟩
    · exact ⟨inTag, by simp⟩

theorem run_quiet {us : List Piece} {body : Octets} (haligned : Aligned us) (h : text us = body ++ [62])
    (hbody : 60 ∉ body) (inTag : Bool) (arrTags : List Octets) :
    TagState.run ⟨inTag, false, arrTags, []⟩ us = ⟨false, false, arrTags, []⟩ := by
  induction us generalizing body inTag with
  | nil => exact absurd h.symm (List.append_ne_nil_of_right_ne_nil body (List.cons_ne_nil 62 []))
  | cons u us ih =>
    rw [TagState.run_cons]
    obtain ⟨rfl, rfl, hlead⟩ | ⟨body', hrest, rfl⟩ := ends_cases haligned h
    · have hnarrow : ¬ 127 < u.lead := by rw [hlead]; decide
      rw [TagState.piece_narrow hnarrow, hlead]
      cases inTag with
      | true => rw [TagState.next_gt, ended_nil]; rfl
      | false => rfl
    · rw [List.mem_append, not_or] at hbody
      have hlead : u.lead ≠ 60 := fun he => hbody.1 (he ▸ List.mem_cons_self)
      obtain ⟨inTag', hquiet⟩ := piece_quiet hlead inTag arrTags
      rw [hquiet]
      exact ih haligned.tail hrest hbody.2 inTag'

/-- Bytes that a name is recorded of. -/
def Recorded (b : UInt8) : Prop := b ≤ 127 ∧ b ≠ 32 ∧ b ≠ 60 ∧ b ≠ 62

instance : DecidablePred Recorded := fun b => inferInstanceAs (Decidable (b ≤ 127 ∧ b ≠ 32 ∧ b ≠ 60 ∧ b ≠ 62))

theorem next_recorded {b : UInt8} (hb : Recorded b) (arrTags : List Octets) (w : Octets) :
    TagState.next ⟨true, true, arrTags, w⟩ b = ⟨true, true, arrTags, w ++ [b]⟩ := by
  rw [TagState.next, if_neg hb.2.2.1, if_neg fun h => hb.2.2.2 h.1, if_neg fun h => hb.2.1 h.1, if_pos rfl]

theorem exists_narrow {us : List Piece} {b : UInt8} {s : Octets} (hb : b ≤ 127) (h : text us = b :: s) :
    ∃ u vs, us = u :: vs ∧ u.lead = b ∧ ¬ 127 < u.lead ∧ text vs = s := by
  cases us with
  | nil => cases h
  | cons u us =>
    rw [text_cons] at h
    have hlead : u.lead = b := (List.cons.inj h).1
    have hnarrow : ¬ 127 < u.lead := by rw [hlead]; exact UInt8.not_lt.mpr hb
    rw [Piece.bytes_narrow hnarrow] at h
    exact ⟨u, us, rfl, hlead, hnarrow, (List.cons.inj h).2⟩

theorem run_recorded {name : Octets} (hname : ∀ b ∈ name, Recorded b) {us : List Piece} {s : Octets}
    (haligned : Aligned us) (h : text us = name ++ s) (arrTags : List Octets) (w : Octets) :
    ∃ vs, Aligned vs ∧ text vs = s ∧
      TagState.run ⟨true, true, arrTags, w⟩ us = TagState.run ⟨true, true, arrTags, w ++ name⟩ vs := by
  induction name generalizing us w with
  | nil => exact ⟨us, haligned, h, by rw [List.append_nil]⟩
  | cons b name ih =>
    obtain ⟨hb, hrest⟩ := List.forall_mem_cons.mp hname
    obtain ⟨u, vs, rfl, hlead, hnarrow, hvs⟩ := exists_narrow hb.1 h
    obtain ⟨ws, hws, htext, hrun⟩ := ih hrest haligned.tail hvs (w ++ [b])
    refine ⟨ws, hws, htext, ?_⟩
    rw [TagState.run_cons, TagState.piece_narrow hnarrow, hlead, next_recorded hb, hrun, List.append_assoc]
    rfl

/-- The end of a tag that has nothing behind what is recorded. -/
theorem run_gt {us : List Piece} (h : text us = [62]) (arrTags : List Octets) (w : Octets) :
    TagState.run ⟨true, true, arrTags, w⟩ us = ⟨false, false, ended arrTags w, []⟩ := by
  obtain ⟨u, vs, rfl, hlead, hnarrow, hvs⟩ := exists_narrow (by decide) h
  have hnone : vs = [] := by
    cases vs with
    | nil => rfl
    | cons v vs => exact absurd hvs (List.cons_ne_nil _ _)
  rw [hnone, TagState.run_cons, TagState.piece_narrow hnarrow, hlead, TagState.next_gt]
  rfl

/-- A blank ends what is recorded. -/
theorem run_blank {us : List Piece} {body : Octets} (haligned : Aligned us)
    (h : text us = 32 :: (body ++ [62])) (hbody : 60 ∉ body) (arrTags : List Octets) (w : Octets) :
    TagState.run ⟨true, true, arrTags, w⟩ us = ⟨false, false, opening arrTags w, []⟩ := by
  obtain ⟨u, vs, rfl, hlead, hnarrow, hvs⟩ := exists_narrow (by decide) h
  rw [TagState.run_cons, TagState.piece_narrow hnarrow, hlead, TagState.next_blank]
  exact run_quiet haligned.tail hvs hbody true _

/-- A name that has begun, and is no closing one, is opened sooner or later. -/
theorem run_any {us : List Piece} {body : Octets} (haligned : Aligned us) (h : text us = body ++ [62])
    (hbody : 60 ∉ body) (arrTags : List Octets) {w : Octets} (hne : w ≠ []) (hw : w.take 1 ≠ [47]) :
    ∃ more, 62 ∉ more ∧
      TagState.run ⟨true, true, arrTags, w⟩ us = ⟨false, false, opening arrTags (w ++ more), []⟩ := by
  induction us generalizing body w with
  | nil => exact absurd h.symm (List.append_ne_nil_of_right_ne_nil body (List.cons_ne_nil 62 []))
  | cons u us ih =>
    have hended : ended arrTags w = opening arrTags w := if_neg hw
    rw [TagState.run_cons]
    obtain ⟨rfl, rfl, hlead⟩ | ⟨body', hrest, rfl⟩ := ends_cases haligned h
    · have hnarrow : ¬ 127 < u.lead := by rw [hlead]; decide
      refine ⟨[], List.not_mem_nil, ?_⟩
      rw [TagState.piece_narrow hnarrow, hlead, TagState.next_gt, hended, List.append_nil]
      rfl
    · rw [List.mem_append, not_or] at hbody
      have hless : u.lead ≠ 60 := fun he => hbody.1 (he ▸ List.mem_cons_self)
      by_cases hwide : 127 < u.lead
      · rw [TagState.piece, if_pos hwide]
        exact ih haligned.tail hrest hbody.2 hne hw
      · rw [TagState.piece_narrow hwide]
        by_cases hgt : u.lead = 62
        · refine ⟨[], List.not_mem_nil, ?_⟩
          rw [hgt, TagState.next_gt, hended, List.append_nil]
          exact run_quiet haligned.tail hrest hbody.2 false _
        · by_cases hblank : u.lead = 32
          · refine ⟨[], List.not_mem_nil, ?_⟩
            rw [hblank, TagState.next_blank, List.append_nil]
            exact run_quiet haligned.tail hrest hbody.2 true _
          · have hb : Recorded u.lead := ⟨UInt8.not_lt.mp hwide, hblank, hless, hgt⟩
            have hfront : (w ++ [u.lead]).take 1 = w.take 1 := by
              rw [List.take_append_of_le_length (List.length_pos_iff.mpr hne)]
            obtain ⟨more, hmore, hrun⟩ := ih haligned.tail hrest hbody.2 (w := w ++ [u.lead])
              (List.append_ne_nil_of_left_ne_nil hne _) (hfront ▸ hw)
            refine ⟨u.lead :: more, ?_, ?_⟩
            · rw [List.mem_cons, not_or]
              exact ⟨Ne.symm hgt, hmore⟩
            · rw [next_recorded hb, hrun, List.append_assoc]
              rfl

end RubbishStore.Util.CutHtml
