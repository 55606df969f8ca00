import RubbishStore.Lib.Text

/- Marked-up text: tags between `<` and `>`, and character data in which `&`, `<`
   and `>` are written as entities. `lex` cuts a text into its tags, as they are
   written, and its data, decoded; inside double quotes a `>` does not end a tag.
   `Reads s ts` says that `s` stands for the tokens `ts` wherever no data is open:
   it holds of a tag whose quotes are closed (`reads_tag`) and of written data
   between two tags (`reads_element`), and it is kept by concatenation. -/
namespace RubbishStore.Lib.Markup

inductive Token where
  | tag (name : Text)
  | data (content : Text)
  deriving DecidableEq, Repr

def escapeChar (c : Char) : Text :=
  if c = '&' then chars "&amp;"
  else if c = '<' then chars "&lt;"
  else if c = '>' then chars "&gt;"
  else [c]

def escape (s : Text) : Text := s.flatMap escapeChar

/-- Only the three entities are known. -/
def unescape : Text → Option Text
  | [] => some []
  | '&' :: 'a' :: 'm' :: 'p' :: ';' :: s => (unescape s).map ('&' :: ·)
  | '&' :: 'l' :: 't' :: ';' :: s => (unescape s).map ('<' :: ·)
  | '&' :: 'g' :: 't' :: ';' :: s => (unescape s).map ('>' :: ·)
  | '&' :: _ => none
  | c :: s => (unescape s).map (c :: ·)

/-- The characters read so far of a stretch of data, or of a tag and whether a
    quote is open in it. -/
inductive Mode where
  | data (read : Text)
  | tag (read : Text) (quoted : Bool)

/-- The token of a stretch of data, if there is any. -/
def dataToken : Text → Option (List Token)
  | [] => some []
  | read => (unescape read).map fun s => [.data s]

def lex : Mode → Text → Option (List Token)
  | .data read, [] => dataToken read
  | .data read, c :: s =>
    if c = '<' then do
      return (← dataToken read) ++ (← lex (.tag [] false) s)
    else lex (.data (read ++ [c])) s
  | .tag _ _, [] => none
  | .tag read quoted, c :: s =>
    if c = '>' ∧ ¬ quoted then do
      return .tag read :: (← lex (.data []) s)
    else lex (.tag (read ++ [c]) (quoted != (c == '"'))) s

/-- A text from its beginning. -/
def tokens (s : Text) : Option (List Token) := lex (.data []) s

/-- The tags among tokens. -/
def tags (ts : List Token) : List Text :=
  ts.filterMap fun
    | .tag name => some name
    | .data _ => none

theorem unescape_plain {c : Char} (h : c ≠ '&') (s : Text) :
    unescape (c :: s) = (unescape s).map (c :: ·) := by
  rw [unescape]
  all_goals
    intros
    simp_all

theorem escapeChar_cases (c : Char) :
    (c = '&' ∧ escapeChar c = chars "&amp;") ∨ (c = '<' ∧ escapeChar c = chars "&lt;") ∨
      (c = '>' ∧ escapeChar c = chars "&gt;") ∨
      (c ≠ '&' ∧ c ≠ '<' ∧ c ≠ '>' ∧ escapeChar c = [c]) := by
  by_cases hamp : c = '&'
  · exact .inl ⟨hamp, if_pos hamp⟩
  · by_cases hlt : c = '<'
    · exact .inr (.inl ⟨hlt, by simp [escapeChar, hlt]⟩)
    · by_cases hgt : c = '>'
      · exact .inr (.inr (.inl ⟨hgt, by simp [escapeChar, hgt]⟩))
      · exact .inr (.inr (.inr ⟨hamp, hlt, hgt, by simp [escapeChar, hamp, hlt, hgt]⟩))

theorem unescape_escape (s : Text) : unescape (escape s) = some s := by
  induction s with
  | nil => rfl
  | cons c s ih =>
    have hcons : escape (c :: s) = escapeChar c ++ escape s := List.flatMap_cons
    rw [hcons]
    obtain ⟨rfl, hc⟩ | ⟨rfl, hc⟩ | ⟨rfl, hc⟩ | ⟨hamp, -, -, hc⟩ := escapeChar_cases c
    · simp [hc, chars, unescape, ih]
    · simp [hc, chars, unescape, ih]
    · simp [hc, chars, unescape, ih]
    · rw [hc, List.singleton_append, unescape_plain hamp, ih, Option.map_some]

/-- Written data holds neither end of a tag. -/
theorem not_mem_escape (s : Text) : '<' ∉ escape s ∧ '>' ∉ escape s := by
  simp only [escape, List.mem_flatMap, not_exists, not_and, ← forall_and]
  intro c _
  obtain ⟨rfl, hc⟩ | ⟨rfl, hc⟩ | ⟨rfl, hc⟩ | ⟨-, hlt, hgt, hc⟩ := escapeChar_cases c
  · simp [hc, chars]
  · simp [hc, chars]
  · simp [hc, chars]
  · simp [hc, Ne.symm hlt, Ne.symm hgt]

theorem lex_data {content : Text} (h : '<' ∉ content) (read s : Text) :
    lex (.data read) (content ++ s) = lex (.data (read ++ content)) s := by
  induction content generalizing read with
  | nil => rw [List.nil_append, List.append_nil]
  | cons c content ih =>
    have hc : c ≠ '<' := fun hc => h (hc ▸ List.mem_cons_self)
    have htail : '<' ∉ content := fun hmem => h (List.mem_cons_of_mem c hmem)
    rw [List.cons_append, lex, if_neg hc, ih htail, List.append_assoc]
    rfl

/-- Every `>` of the tag is inside quotes, and the last of these is closed. -/
def Closed : Bool → Text → Prop
  | quoted, [] => quoted = false
  | quoted, c :: s => (c = '>' → quoted = true) ∧ Closed (quoted != (c == '"')) s

theorem lex_closed {quoted : Bool} {name : Text} (h : Closed quoted name) (read s : Text) :
    lex (.tag read quoted) (name ++ '>' :: s) =
      (lex (.data []) s).map (.tag (read ++ name) :: ·) := by
  induction name generalizing read quoted with
  | nil =>
    obtain rfl : quoted = false := h
    rw [List.nil_append, lex, if_pos ⟨rfl, by decide⟩, List.append_nil]
    cases lex (.data []) s <;> rfl
  | cons c name ih =>
    obtain ⟨hc, htail⟩ := h
    have hopen : ¬ (c = '>' ∧ ¬ quoted) := fun hend => hend.2 (hc hend.1)
    rw [List.cons_append, lex, if_neg hopen, ih htail, List.append_assoc]
    rfl

/-- A tag, and the data in front of it. -/
theorem lex_tag {name : Text} (h : Closed false name) (read s : Text) :
    lex (.data read) ('<' :: name ++ '>' :: s) = do
      return (← dataToken read) ++ .tag name :: (← lex (.data []) s) := by
  rw [List.cons_append, lex, if_pos rfl, lex_closed h]
  cases dataToken read with
  | none => rfl
  | some ts => cases lex (.data []) s <;> rfl

theorem dataToken_escape (s : Text) :
    dataToken (escape s) = some (if s = [] then [] else [.data s]) := by
  cases s with
  | nil => rfl
  | cons c s =>
    have hne : escape (c :: s) ≠ [] := by
      intro he
      have := unescape_escape (c :: s)
      rw [he] at this
      cases this
    rw [dataToken, unescape_escape, if_neg (List.cons_ne_nil c s)]
    · rfl
    · exact hne

/-- Where no data is open, `s` stands for the tokens `ts`. -/
def Reads (s : Text) (ts : List Token) : Prop :=
  ∀ rest, lex (.data []) (s ++ rest) = (lex (.data []) rest).map (ts ++ ·)

theorem Reads.append {s s' : Text} {ts ts' : List Token} (h : Reads s ts) (h' : Reads s' ts') :
    Reads (s ++ s') (ts ++ ts') := by
  intro rest
  rw [List.append_assoc, h, h', Option.map_map]
  congr 1
  funext us
  simp

theorem Reads.flatMap {A : Type} {f : A → Text} {g : A → List Token} {l : List A}
    (h : ∀ a ∈ l, Reads (f a) (g a)) : Reads (l.flatMap f) (l.flatMap g) := by
  induction l with
  | nil =>
    intro rest
    simp
  | cons a l ih =>
    rw [List.flatMap_cons, List.flatMap_cons]
    exact (h a List.mem_cons_self).append (ih fun b hb => h b (List.mem_cons_of_mem a hb))

theorem Reads.tokens {s : Text} {ts : List Token} (h : Reads s ts) : tokens s = some ts := by
  have hs := h []
  rw [List.append_nil] at hs
  rw [Markup.tokens, hs]
  simp [lex, dataToken]

theorem reads_tag {s name : Text} (hs : s = '<' :: name ++ ['>']) (h : Closed false name) :
    Reads s [.tag name] := by
  intro rest
  rw [hs, List.append_assoc, List.singleton_append, lex_tag h]
  cases lex (.data []) rest <;> rfl

/-- Data between two tags. -/
def elementTokens (opening content closing : Text) : List Token :=
  .tag opening :: (if content = [] then [] else [.data content]) ++ [.tag closing]

theorem reads_element {s opening content closing : Text}
    (hs : s = '<' :: opening ++ '>' :: escape content ++ '<' :: closing ++ ['>'])
    (ho : Closed false opening) (hc : Closed false closing) :
    Reads s (elementTokens opening content closing) := by
  intro rest
  have hrest : s ++ rest =
      '<' :: opening ++ '>' :: (escape content ++ ('<' :: closing ++ '>' :: rest)) := by simp [hs]
  rw [hrest, lex_tag ho, lex_data (not_mem_escape content).1, List.nil_append, lex_tag hc,
    dataToken_escape]
  cases lex (.data []) rest with
  | none => rfl
  | some ts => simp [dataToken, elementTokens]

theorem tags_append (ts us : List Token) : tags (ts ++ us) = tags ts ++ tags us :=
  List.filterMap_append

theorem tags_elementTokens (opening content closing : Text) :
    tags (elementTokens opening content closing) = [opening, closing] := by
  rw [elementTokens]
  split <;> rfl

end RubbishStore.Lib.Markup
