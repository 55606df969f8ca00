import RubbishStore.Util.Validator

/- What `Util_Validator` reports. A message is looked up under the snake-case spelling of
   a rule's name, which is the written one unless a segment between two others is a single
   letter (`getMessage_written_iff`). -/
namespace RubbishStore.Util.Validator
open RubbishStore.Lib RubbishStore.Util.Strings

/-! The name of a rule. -/

/-- The message under a name as it is written. -/
def registered (name : Text) : Message := (messageFormats.lookup name).getD (.text [])

/-- A name comes back from its studly spelling, and the message of a rule that is written
    with it, with or without parameters, is the one registered under it. -/
def Written {X O : Type} (php : Php X O) (name : Text) : Prop :=
  snake (studly name) = name ∧
    ∀ rule, rule = name ∨ (∃ parameter, rule = name ++ ':' :: parameter) →
      getMessage (parseRule php rule).1 = registered name

theorem joined_ne {segments : List Text} (h : ∀ s ∈ segments, IsSegment s) : ':' ∉ joined segments := by
  cases segments with
  | nil => exact List.not_mem_nil
  | cons s segments =>
    intro hmem
    rw [joined_cons, List.mem_append, List.mem_flatMap] at hmem
    rcases hmem with hmem | ⟨t, ht, hmem⟩
    · exact letter_ne ((h s List.mem_cons_self).2 _ hmem) rfl rfl
    · rcases List.mem_cons.mp hmem with hmem | hmem
      · exact absurd hmem (by decide)
      · exact letter_ne ((h t (List.mem_cons_of_mem s ht)).2 _ hmem) rfl rfl

/-- The name of a rule stands in front of the first colon. -/
theorem parseRule_fst {X O : Type} (php : Php X O) {name rule : Text} (hname : ':' ∉ name)
    (h : rule = name ∨ ∃ parameter, rule = name ++ ':' :: parameter) : (parseRule php rule).1 = studly name := by
  rcases h with rfl | ⟨parameter, rfl⟩
  · rw [parseRule, if_neg hname]
  · have hmem : ':' ∈ name ++ ':' :: parameter := List.mem_append_right name List.mem_cons_self
    have hfront : (name ++ ':' :: parameter).takeWhile (fun c => c ≠ ':') = name := by
      rw [List.takeWhile_append_of_pos, List.takeWhile_cons_of_neg (by decide), List.append_nil]
      intro c hc
      exact decide_eq_true fun he => hname (he ▸ hc)
    rw [parseRule, if_pos hmem]
    exact congrArg studly hfront

/-- **Only a single letter between two segments is lost**: `a_b_c` is looked up as `a_bc`. -/
theorem getMessage_written_iff {X O : Type} (php : Php X O) {segments : List Text} (hne : segments ≠ [])
    (h : ∀ s ∈ segments, IsSegment s) :
    Written php (joined segments) ↔ ∀ s ∈ segments.tail.dropLast, s.length ≠ 1 := by
  rw [← snake_studly_iff hne h, Written, and_iff_left_iff_imp]
  intro hround rule hrule
  rw [parseRule_fst php (joined_ne h) hrule, getMessage, hround, registered]

theorem getMessage_written_iff_required :
    Written Session.textsAndInts (joined [chars "required", chars "without", chars "all"]) := by
  refine (getMessage_written_iff Session.textsAndInts (List.cons_ne_nil _ _) ?_).mpr ?_
  · simp [IsSegment, chars]
  · simp [chars]

theorem snake_a_b_c :
    ¬∀ segments : List Text, segments ≠ [] → (∀ s ∈ segments, IsSegment s) →
      snake (studly (joined segments)) = joined segments := by
  intro hall
  have hround := hall [['a'], ['b'], ['c']] (List.cons_ne_nil _ _) (by simp [IsSegment])
  revert hround
  decide

/-! The conditions of a rule. -/

/-- The name in front of the first colon is `message`. -/
def isMessage (condition : Text) : Bool := condition.takeWhile (fun c => c ≠ ':') = chars "message"

section
variable (message : Text → Bool)

/-- The conditions that are left of a rule when the messages are taken out. -/
def Given.kept : Given → List Text
  | .text s => (s.splitOn '|').filter fun condition => !message condition
  | .array conditions => conditions

/-- The messages of a rule, which go to the attribute, the last one for all. -/
def Given.record (attr : Key) (person : PersonMessage) : Given → PersonMessage
  | .text s => ((s.splitOn '|').filter message).foldl
      (fun person condition => assocSet person attr (.text (personText condition))) person
  | .array _ => person

/-- The rules without their messages, and the messages. -/
def separate (rules : List (Key × Given)) (person : PersonMessage) : RuleSet × PersonMessage :=
  (rules.map fun entry => (entry.1, entry.2.kept message),
    rules.foldl (fun person entry => entry.2.record message entry.1 person) person)

end

theorem explodeConditions_eq (attr : Key) (conditions : List Text) (person : PersonMessage) :
    explodeConditions attr conditions person =
      (conditions.filter fun condition => !hasMessage condition,
        (conditions.filter hasMessage).foldl
          (fun person condition => assocSet person attr (.text (personText condition))) person) := by
  induction conditions generalizing person with
  | nil => rfl
  | cons condition conditions ih =>
    rw [explodeConditions]
    cases hmessage : hasMessage condition with
    | true => simp [hmessage, ih]
    | false => simp [hmessage, ih]

/-- The source takes what holds the word anywhere for a message. -/
theorem explodeRules_eq (rules : List (Key × Given)) (person : PersonMessage) :
    explodeRules rules person = separate hasMessage rules person := by
  induction rules generalizing person with
  | nil => rfl
  | cons entry rules ih =>
    obtain ⟨attr, s | conditions⟩ := entry
    · rw [explodeRules, explodeConditions_eq]
      dsimp only
      rw [ih]
      rfl
    · rw [explodeRules, ih]
      rfl

theorem filter_eq_filter_iff {p q : Text → Bool} {l : List Text} :
    l.filter p = l.filter q ↔ ∀ a ∈ l, p a = q a := by
  refine ⟨fun h a ha => ?_, List.filter_congr⟩
  have hmem : a ∈ l.filter p ↔ a ∈ l.filter q := by rw [h]
  rw [List.mem_filter, List.mem_filter, and_iff_right ha, and_iff_right ha] at hmem
  exact Bool.eq_iff_iff.mpr hmem

/-- Two ways to tell messages agree exactly if they do on every condition. -/
theorem separate_eq_iff (p q : Text → Bool) (rules : List (Key × Given)) (person : PersonMessage) :
    separate p rules person = separate q rules person ↔
      ∀ attr s, (attr, .text s) ∈ rules → ∀ condition ∈ s.splitOn '|', p condition = q condition := by
  constructor
  · intro h attr s hmem condition hcondition
    have hkept := List.map_inj_left.mp (congrArg Prod.fst h) (attr, .text s) hmem
    have hfilter := filter_eq_filter_iff.mp (Prod.mk.inj hkept).2 condition hcondition
    exact Bool.not_inj hfilter
  · intro hall
    have hrule : ∀ entry ∈ rules, entry.2.kept p = entry.2.kept q ∧
        ∀ person, entry.2.record p entry.1 person = entry.2.record q entry.1 person := by
      intro entry hmem
      obtain ⟨attr, s | conditions⟩ := entry
      · have hsame := hall attr s hmem
        refine ⟨?_, fun person => ?_⟩
        · exact List.filter_congr fun condition hcondition => congrArg not (hsame condition hcondition)
        · rw [Given.record, Given.record, List.filter_congr hsame]
      · exact ⟨rfl, fun person => rfl⟩
    refine Prod.ext ?_ ?_
    · exact List.map_congr_left fun entry hmem => by rw [(hrule entry hmem).1]
    · exact List.foldl_ext _ _ _ fun person entry hmem => (hrule entry hmem).2 person

theorem hasMessage_of_isMessage {condition : Text} (h : isMessage condition = true) :
    hasMessage condition = true := by
  have hname : condition.takeWhile (fun c => c ≠ ':') = chars "message" := of_decide_eq_true h
  have hfront : Replace.startsWith id (chars "message") condition = true := by
    rw [← List.takeWhile_append_dropWhile (p := fun c => c ≠ ':') (l := condition), hname]
    exact Replace.startsWith_append rfl _
  exact List.any_eq_true.mpr ⟨condition, (List.mem_tails _ _).mpr List.suffix_rfl, hfront⟩

/-- **A rule keeps its conditions and gives its message exactly if `message` is nowhere but
    in front of a colon**: what holds the word elsewhere is dropped, and recorded. -/
theorem explodeRules_separate_iff (rules : List (Key × Given)) (person : PersonMessage) :
    explodeRules rules person = separate isMessage rules person ↔
      ∀ attr s, (attr, .text s) ∈ rules → ∀ condition ∈ s.splitOn '|',
        hasMessage condition = true → isMessage condition = true := by
  rw [explodeRules_eq, separate_eq_iff]
  refine forall₅_congr fun attr s _ condition _ => ?_
  rw [Bool.eq_iff_iff]
  exact ⟨fun h => h.mp, fun h => ⟨h, hasMessage_of_isMessage⟩⟩

theorem explodeRules_drops_in :
    let rules : List (Key × Given) := [(.str (chars "kind"), .text (chars "in:message,mail"))]
    explodeRules rules [] = ([(.str (chars "kind"), [])],
        [(.str (chars "kind"), .text (chars "message,mail"))]) ∧
      separate isMessage rules [] = ([(.str (chars "kind"), [chars "in:message,mail"])], []) ∧
      ¬∀ (rules : List (Key × Given)) (person : PersonMessage),
        explodeRules rules person = separate isMessage rules person := by
  refine ⟨by decide +kernel, by decide +kernel, fun hall => ?_⟩
  have hsame := hall [(.str (chars "kind"), .text (chars "in:message,mail"))] []
  revert hsame
  decide +kernel

/-! Where the messages go. -/

def personKey : Key := .str (chars "personMessage")

def messageOf (f : Failure) : Message := doReplacements (getMessage f.rule) f.attr f.rule f.parameters

/-- An array without keys of its own. -/
def listed {β : Type} (bs : List β) : List (Key × β) := bs.zipIdx.map fun p => (.int p.2, p.1)

/-- The messages of an attribute, in the order of its rules. -/
def entryOf (items : List Failure) (attr : Key) : List (Key × Message) :=
  listed ((items.filter fun f => f.attr = attr).map messageOf)

/-- Each attribute has the messages of its failures, and there is nothing else but the
    personal messages, where anything has failed. -/
structure Reported (person : PersonMessage) (items : List Failure) (messages : Messages) : Prop where
  failed : ∀ attr ∈ items.map Failure.attr, messages.lookup attr = some (entryOf items attr)
  others : ∀ attr, attr ∉ items.map Failure.attr → attr ≠ personKey → messages.lookup attr = none
  person : messages.lookup personKey = if items = [] then none else some person

/-- The keys in the order in which they come up. -/
def firsts (keys : List Key) : List Key := keys.foldl (fun seen k => if k ∈ seen then seen else seen ++ [k]) []

/-- The numbers among the keys are 0, 1, 2 and so on, in this order. -/
def Numbered (keys : List Key) : Prop :=
  keys.filter Key.isInt = (List.range (keys.countP Key.isInt)).map fun i : Nat => .int i

/-- The attributes that are numbers are 0, 1, 2 and so on, in the order in which they fail
    first; and `personMessage` does not fail, or the personal messages are its messages. -/
def Separable (person : PersonMessage) (items : List Failure) : Prop :=
  Numbered (firsts (items.map Failure.attr)) ∧
    (personKey ∈ items.map Failure.attr → person = entryOf items personKey)

theorem numbered_concat_iff {keys : List Key} {k : Key} :
    Numbered (keys ++ [k]) ↔ Numbered keys ∧ ∀ i, k = .int i → i = keys.countP Key.isInt := by
  rw [Numbered, Numbered, List.filter_append, List.countP_append]
  cases k with
  | str s => simp [Key.isInt]
  | int i =>
    have hone : [Key.int i].filter Key.isInt = [.int i] := rfl
    have hcount : [Key.int i].countP Key.isInt = 1 := rfl
    rw [hone, hcount, List.range_succ, List.map_append, List.map_singleton]
    constructor
    · intro h
      obtain ⟨hkeys, hlast⟩ := List.append_inj' h rfl
      refine ⟨hkeys, fun j hj => ?_⟩
      cases hj
      exact Key.int.inj (List.cons.inj hlast).1
    · intro h
      rw [h.1, h.2 i rfl]

theorem firsts_concat (keys : List Key) (k : Key) :
    firsts (keys ++ [k]) = if k ∈ firsts keys then firsts keys else firsts keys ++ [k] := by
  rw [firsts, List.foldl_append]
  rfl

theorem mem_firsts {keys : List Key} {k : Key} : k ∈ firsts keys ↔ k ∈ keys := by
  induction keys using List.reverseRecOn with
  | nil => exact Iff.rfl
  | append_singleton keys a ih =>
    rw [firsts_concat, List.mem_append, ← ih, List.mem_singleton]
    split
    · next h => exact ⟨.inl, fun hk => hk.elim id fun he => he ▸ h⟩
    · rw [List.mem_append, List.mem_singleton]

/-- Keys of an array that is numbered already. -/
structure Ordered (keys : List Key) : Prop where
  nodup : keys.Nodup
  numbered : Numbered keys

theorem ordered_concat_iff {keys : List Key} {k : Key} :
    Ordered (keys ++ [k]) ↔ Ordered keys ∧ k ∉ keys ∧ ∀ i, k = .int i → i = keys.countP Key.isInt := by
  constructor
  · intro h
    obtain ⟨hnumbered, hk⟩ := numbered_concat_iff.mp h.numbered
    exact ⟨⟨(List.nodup_append.mp h.nodup).1, hnumbered⟩,
      fun hmem => (List.nodup_append.mp h.nodup).2.2 k hmem k List.mem_cons_self rfl, hk⟩
  · intro h
    obtain ⟨hkeys, hnew, hk⟩ := h
    have hnodup : (keys.concat k).Nodup := hkeys.nodup.concat hnew
    rw [List.concat_eq_append] at hnodup
    exact ⟨hnodup, numbered_concat_iff.mpr ⟨hkeys.numbered, hk⟩⟩

theorem countP_assocKeys {β : Type} (m : List (Key × β)) :
    (assocKeys m).countP Key.isInt = m.countP fun p => p.1.isInt := List.countP_map

/-- A merge leaves numbers that are in order as they are. -/
theorem foldl_mergeElement {β : Type} {m : List (Key × β)} (h : Ordered (assocKeys m)) :
    m.foldl mergeElement [] = m := by
  induction m using List.reverseRecOn with
  | nil => rfl
  | append_singleton m p ih =>
    rw [assocKeys, List.map_append] at h
    obtain ⟨hm, hnew, hp⟩ := ordered_concat_iff.mp h
    rw [List.foldl_append, ih hm, List.foldl_cons, List.foldl_nil, mergeElement]
    obtain ⟨k, b⟩ := p
    cases k with
    | str s => exact assocSet_new hnew b
    | int i =>
      have hi : i = (assocKeys m).countP Key.isInt := hp i rfl
      have hint : (Key.int i, b).1.isInt = true := rfl
      rw [countP_assocKeys] at hi
      rw [if_pos hint, hi]

theorem Ordered.mem_iff {keys : List Key} (h : Ordered keys) (i : Int) :
    .int i ∈ keys ↔ 0 ≤ i ∧ i < keys.countP Key.isInt := by
  have hfilter : .int i ∈ keys ↔ .int i ∈ keys.filter Key.isInt := by
    rw [List.mem_filter]
    exact (and_iff_left rfl).symm
  rw [hfilter, h.numbered, List.mem_map]
  constructor
  · intro hmem
    obtain ⟨n, hn, he⟩ := hmem
    have hlt := List.mem_range.mp hn
    have hi : (n : Int) = i := Key.int.inj he
    omega
  · intro hrange
    exact ⟨i.toNat, List.mem_range.mpr (by omega), congrArg Key.int (Int.toNat_of_nonneg hrange.1)⟩

theorem Ordered.set {β : Type} {m : List (Key × β)} (h : Ordered (assocKeys m)) {k : Key}
    (hk : ∀ i, k = .int i → k ∉ assocKeys m → i = (assocKeys m).countP Key.isInt) (b : β) :
    Ordered (assocKeys (assocSet m k b)) := by
  rw [assocKeys_set]
  split
  · exact h
  · next hnew => exact ordered_concat_iff.mpr ⟨h, hnew, fun i hi => hk i hi hnew⟩

/-- The key that an attribute has its messages under; a new number is the next one. -/
def slot (messages : Messages) (attr : Key) : Key :=
  if attr.isInt ∧ attr ∉ assocKeys messages then .int ((assocKeys messages).countP Key.isInt) else attr

section
variable {person : PersonMessage} {messages : Messages}

theorem slot_eq {attr : Key} {i : Int} (hslot : slot messages attr = .int i)
    (hnew : slot messages attr ∉ assocKeys messages) : i = (assocKeys messages).countP Key.isInt := by
  rw [slot] at hslot hnew
  split at hslot
  · exact (Key.int.inj hslot).symm
  · next hold =>
    rw [if_neg hold] at hnew
    exact absurd ⟨by rw [hslot]; rfl, hnew⟩ hold

/-- What one failure does to messages that are in order, and they stay so. -/
theorem addMessage_eq (h : Ordered (assocKeys messages)) (f : Failure) :
    addMessage person messages f =
        assocSet (assocSet messages (slot messages f.attr)
          (push ((messages.lookup f.attr).getD []) (messageOf f))) personKey person ∧
      Ordered (assocKeys (addMessage person messages f)) := by
  have heq : addMessage person messages f =
      assocSet (assocSet messages (slot messages f.attr)
        (push ((messages.lookup f.attr).getD []) (messageOf f))) personKey person := by
    rw [addMessage, arrayMerge]
    refine congrArg (fun m => assocSet m personKey person) ?_
    by_cases hint : f.attr.isInt = true ∧ f.attr ∉ assocKeys messages
    · have hnext : .int ((assocKeys messages).countP Key.isInt) ∉ assocKeys messages := by
        rw [h.mem_iff]
        omega
      have helement : mergeElement messages (f.attr, push ((messages.lookup f.attr).getD []) (messageOf f)) =
          messages ++ [(.int ((assocKeys messages).countP Key.isInt),
            push ((messages.lookup f.attr).getD []) (messageOf f))] := by
        rw [mergeElement, countP_assocKeys]
        exact if_pos hint.1
      rw [slot, if_pos hint, assocSet_new hint.2, List.foldl_append, foldl_mergeElement h, assocSet_new hnext]
      exact helement
    · rw [slot, if_neg hint]
      refine foldl_mergeElement (h.set (fun i hi hnew => ?_) _)
      exact absurd ⟨by rw [hi]; rfl, hnew⟩ hint
  refine ⟨heq, ?_⟩
  rw [heq]
  exact (h.set (fun i hi hnew => slot_eq hi hnew) _).set
    (fun i (hi : Key.str (chars "personMessage") = .int i) => nomatch hi) _

end

/-- The messages of some failures, from none on. -/
def reported (person : PersonMessage) (items : List Failure) : Messages := items.foldl (addMessage person) []

theorem reported_concat (person : PersonMessage) (items : List Failure) (f : Failure) :
    reported person (items ++ [f]) = addMessage person (reported person items) f := List.foldl_concat ..

theorem ordered_reported (person : PersonMessage) (items : List Failure) :
    Ordered (assocKeys (reported person items)) := by
  induction items using List.reverseRecOn with
  | nil => exact ⟨List.nodup_nil, rfl⟩
  | append_singleton items f ih =>
    rw [reported_concat]
    exact (addMessage_eq ih f).2

theorem lookup_reported_concat (person : PersonMessage) (items : List Failure) (f : Failure) (attr : Key) :
    (reported person (items ++ [f])).lookup attr =
      if personKey = attr then some person
      else if slot (reported person items) f.attr = attr then
        some (push (((reported person items).lookup f.attr).getD []) (messageOf f))
      else (reported person items).lookup attr := by
  rw [reported_concat, (addMessage_eq (ordered_reported person items) f).1, lookup_set, lookup_set]

/-! Messages that go where they belong. -/

theorem listed_concat {β : Type} (bs : List β) (b : β) : listed (bs ++ [b]) = listed bs ++ [(.int bs.length, b)] := by
  rw [listed, List.zipIdx_append, List.map_append, listed, Nat.zero_add]
  rfl

theorem push_listed {β : Type} (bs : List β) (b : β) : push (listed bs) b = listed (bs ++ [b]) := by
  have hnext : (listed bs).foldl (fun n p => p.1.next n) 0 = bs.length := by
    induction bs using List.reverseRecOn with
    | nil => rfl
    | append_singleton bs c ih =>
      have hmax : max (bs.length : Int) (bs.length + 1) = bs.length + 1 := by omega
      rw [listed_concat, List.foldl_concat, ih, List.length_append]
      exact hmax
  rw [push, hnext, listed_concat]

theorem entryOf_concat (items : List Failure) (f : Failure) (attr : Key) :
    entryOf (items ++ [f]) attr = if f.attr = attr then push (entryOf items attr) (messageOf f) else entryOf items attr := by
  rw [entryOf, List.filter_append, List.map_append]
  by_cases h : f.attr = attr
  · have hone : [f].filter (fun f => f.attr = attr) = [f] := List.filter_cons_of_pos (decide_eq_true h)
    rw [if_pos h, hone, List.map_singleton, ← push_listed, entryOf]
  · have hnone : [f].filter (fun f => f.attr = attr) = [] := List.filter_cons_of_neg (by simpa using h)
    rw [if_neg h, hnone, List.map_nil, List.append_nil, entryOf]

theorem entryOf_eq_nil {items : List Failure} {attr : Key} (h : attr ∉ items.map Failure.attr) :
    entryOf items attr = [] := by
  have hnone : items.filter (fun f => f.attr = attr) = [] :=
    List.filter_eq_nil_iff.mpr fun f hf he => h (of_decide_eq_true he ▸ List.mem_map_of_mem hf)
  rw [entryOf, hnone]
  rfl

theorem slot_mem {messages : Messages} {attr : Key} (h : attr ∈ assocKeys messages) : slot messages attr = attr :=
  if_neg fun hand => hand.2 h

theorem filter_isInt_added (keys : List Key) (k : Key) :
    (if k ∈ keys then keys else keys ++ [k]).filter Key.isInt =
      if k ∈ keys ∨ k.isInt = false then keys.filter Key.isInt else keys.filter Key.isInt ++ [k] := by
  by_cases hmem : k ∈ keys
  · rw [if_pos hmem, if_pos (.inl hmem)]
  · rw [if_neg hmem, List.filter_append]
    cases hint : k.isInt with
    | true => simp [hmem, hint]
    | false => simp [hint]

theorem filter_isInt_set {β : Type} (m : List (Key × β)) (k : Key) (b : β) :
    (assocKeys (assocSet m k b)).filter Key.isInt =
      if k ∈ assocKeys m ∨ k.isInt = false then (assocKeys m).filter Key.isInt
      else (assocKeys m).filter Key.isInt ++ [k] := by
  rw [assocKeys_set, filter_isInt_added]

theorem filter_isInt_firsts (keys : List Key) (k : Key) :
    (firsts (keys ++ [k])).filter Key.isInt =
      if k ∈ firsts keys ∨ k.isInt = false then (firsts keys).filter Key.isInt
      else (firsts keys).filter Key.isInt ++ [k] := by
  rw [firsts_concat, filter_isInt_added]

theorem numbered_firsts_concat_iff {keys : List Key} {k : Key} :
    Numbered (firsts (keys ++ [k])) ↔
      Numbered (firsts keys) ∧ ∀ i, k = .int i → k ∉ firsts keys → i = (firsts keys).countP Key.isInt := by
  rw [firsts_concat]
  split
  · next h => exact (and_iff_left fun i _ hnew => absurd h hnew).symm
  · next h => exact numbered_concat_iff.trans (and_congr_right' (forall₂_congr fun i _ => ⟨fun hi _ => hi, fun hall => hall h⟩))

section
variable {person : PersonMessage} {items : List Failure} {messages : Messages} {keys : List Key}

theorem mem_of_filter_isInt (h : (assocKeys messages).filter Key.isInt = keys.filter Key.isInt) (i : Int) :
    .int i ∈ assocKeys messages ↔ .int i ∈ keys := by
  have hmem : .int i ∈ (assocKeys messages).filter Key.isInt ↔ .int i ∈ keys.filter Key.isInt := by rw [h]
  rw [List.mem_filter, List.mem_filter] at hmem
  exact ((and_iff_left rfl).symm.trans hmem).trans (and_iff_left rfl)

/-- A key has its own slot while the numbers come in order. -/
theorem slot_self (h : (assocKeys messages).filter Key.isInt = (firsts keys).filter Key.isInt) {k : Key}
    (hk : Numbered (firsts (keys ++ [k]))) : slot messages k = k := by
  rw [slot]
  split
  · next hnew =>
    cases k with
    | str s => exact absurd hnew.1 Bool.false_ne_true
    | int i =>
      have hfirst : .int i ∉ firsts keys := fun hmem => hnew.2 ((mem_of_filter_isInt h i).mpr hmem)
      rw [(numbered_firsts_concat_iff.mp hk).2 i rfl hfirst, List.countP_eq_length_filter, h,
        List.countP_eq_length_filter]
  · rfl

/-- While the numbers fail in order, every attribute but one has its messages. -/
theorem reported_right (person : PersonMessage) (h : Numbered (firsts (items.map Failure.attr))) :
    (assocKeys (reported person items)).filter Key.isInt = (firsts (items.map Failure.attr)).filter Key.isInt ∧
      ∀ attr, attr ≠ personKey → (reported person items).lookup attr =
        if attr ∈ items.map Failure.attr then some (entryOf items attr) else none := by
  induction items using List.reverseRecOn with
  | nil => exact ⟨rfl, fun attr _ => rfl⟩
  | append_singleton items f ih =>
    rw [List.map_append, List.map_singleton] at h
    obtain ⟨hkeys, hlookup⟩ := ih (numbered_firsts_concat_iff.mp h).1
    have hslot : slot (reported person items) f.attr = f.attr := slot_self hkeys h
    constructor
    · have hperson : personKey.isInt = false := rfl
      rw [List.map_append, List.map_singleton, filter_isInt_firsts, reported_concat,
        (addMessage_eq (ordered_reported person items) f).1, filter_isInt_set, if_pos (.inr hperson),
        hslot, filter_isInt_set, hkeys]
      refine if_congr ?_ rfl rfl
      cases hattr : f.attr with
      | str s => exact iff_of_true (.inr rfl) (.inr rfl)
      | int i => rw [mem_of_filter_isInt hkeys i]
    · intro attr hne
      have hmem : attr ∈ (items ++ [f]).map Failure.attr ↔ attr ∈ items.map Failure.attr ∨ attr = f.attr := by
        rw [List.map_append, List.mem_append]
        exact or_congr_right List.mem_singleton
      rw [lookup_reported_concat, if_neg (Ne.symm hne), hslot, entryOf_concat]
      by_cases hattr : f.attr = attr
      · have hold : ((reported person items).lookup attr).getD [] = entryOf items attr := by
          rw [hlookup attr hne]
          split
          · rfl
          · next hout => exact (entryOf_eq_nil hout).symm
        rw [if_pos hattr, if_pos hattr, if_pos (hmem.mpr (.inr hattr.symm)), hattr, hold]
      · rw [if_neg hattr, if_neg hattr, hlookup attr hne]
        exact if_congr (hmem.trans (or_iff_left (Ne.symm hattr))).symm rfl rfl

/-- A number has a message that is not its own. -/
def Misplaced (person : PersonMessage) (items : List Failure) : Prop :=
  ∃ i entry, (reported person items).lookup (.int i) = some entry ∧ (entryOf items (.int i)).length < entry.length

theorem length_push {β : Type} (entry : List (Key × β)) (b : β) : (push entry b).length = entry.length + 1 :=
  List.length_append

/-- A message that is misplaced remains so. -/
theorem Misplaced.concat (h : Misplaced person items) (f : Failure) : Misplaced person (items ++ [f]) := by
  obtain ⟨i, entry, hlookup, hlength⟩ := h
  have hperson : personKey ≠ .int i := Key.noConfusion
  have hmem : .int i ∈ assocKeys (reported person items) := by
    by_contra hnot
    rw [lookup_eq_none_keys.mpr hnot] at hlookup
    cases hlookup
  by_cases hattr : f.attr = .int i
  · refine ⟨i, push entry (messageOf f), ?_, ?_⟩
    · rw [lookup_reported_concat, if_neg hperson, hattr, slot_mem hmem, if_pos rfl, hlookup]
      rfl
    · rw [entryOf_concat, if_pos hattr, length_push, length_push]
      exact Nat.succ_lt_succ hlength
  · have hslot : slot (reported person items) f.attr ≠ .int i := by
      intro hslot
      rw [slot] at hslot
      split at hslot
      · have hrange := ((ordered_reported person items).mem_iff i).mp hmem
        have hi := Key.int.inj hslot
        omega
      · exact hattr hslot
    refine ⟨i, entry, ?_, ?_⟩
    · rw [lookup_reported_concat, if_neg hperson, if_neg hslot, hlookup]
    · rwa [entryOf_concat, if_neg hattr]

/-- The first number out of order has its message under another. -/
theorem misplaced_concat (h : Numbered (firsts (items.map Failure.attr))) {f : Failure}
    (hf : ¬Numbered (firsts ((items ++ [f]).map Failure.attr))) : Misplaced person (items ++ [f]) := by
  obtain ⟨hkeys, -⟩ := reported_right person h
  rw [List.map_append, List.map_singleton, numbered_firsts_concat_iff] at hf
  obtain ⟨i, hattr, hnew, hi⟩ : ∃ i, f.attr = .int i ∧ f.attr ∉ firsts (items.map Failure.attr) ∧
      i ≠ (firsts (items.map Failure.attr)).countP Key.isInt := by
    by_contra hall
    refine hf ⟨h, fun i hattr hnew => ?_⟩
    by_contra hi
    exact hall ⟨i, hattr, hnew, hi⟩
  have hcount : (firsts (items.map Failure.attr)).countP Key.isInt =
      (assocKeys (reported person items)).countP Key.isInt := by
    rw [List.countP_eq_length_filter, List.countP_eq_length_filter, hkeys]
  have hold : .int i ∉ assocKeys (reported person items) := by
    rwa [mem_of_filter_isInt hkeys, ← hattr]
  have hslot : slot (reported person items) f.attr = .int ((firsts (items.map Failure.attr)).countP Key.isInt) := by
    rw [slot, hcount]
    exact if_pos (by rw [hattr]; exact ⟨rfl, hold⟩)
  have hnone : entryOf items (.int ((firsts (items.map Failure.attr)).countP Key.isInt)) = [] := by
    apply entryOf_eq_nil
    rw [← mem_firsts, ← mem_of_filter_isInt hkeys, (ordered_reported person items).mem_iff, hcount]
    omega
  refine ⟨(firsts (items.map Failure.attr)).countP Key.isInt, push [] (messageOf f), ?_, ?_⟩
  · rw [lookup_reported_concat, if_neg Key.noConfusion, if_pos hslot, hattr, lookup_eq_none_keys.mpr hold]
    rfl
  · have hne : f.attr ≠ .int ((firsts (items.map Failure.attr)).countP Key.isInt) := by
      rw [hattr]
      exact fun he => hi (Key.int.inj he)
    rw [entryOf_concat, if_neg hne, hnone]
    exact Nat.zero_lt_one

/-- Where they do not come in order, a message is misplaced in the end. -/
theorem misplaced (h : ¬Numbered (firsts (items.map Failure.attr))) : Misplaced person items := by
  induction items using List.reverseRecOn with
  | nil => exact absurd rfl h
  | append_singleton items f ih =>
    by_cases hitems : Numbered (firsts (items.map Failure.attr))
    · exact misplaced_concat hitems h
    · exact (ih hitems).concat f

theorem Misplaced.not_reported (h : Misplaced person items) : ¬Reported person items (reported person items) := by
  intro hreported
  obtain ⟨i, entry, hlookup, hlength⟩ := h
  by_cases hmem : .int i ∈ items.map Failure.attr
  · rw [hreported.failed _ hmem, Option.some.injEq] at hlookup
    rw [hlookup] at hlength
    exact lt_irrefl _ hlength
  · rw [hreported.others _ hmem Key.noConfusion] at hlookup
    cases hlookup

theorem reported_iff : Reported person items (reported person items) ↔ Separable person items := by
  have hpersonal : items ≠ [] → (reported person items).lookup personKey = some person :=
    lookup_foldl_addMessage person []
  constructor
  · intro h
    refine ⟨?_, fun hmem => ?_⟩
    · by_contra hnot
      exact (misplaced hnot).not_reported h
    · have hne : items ≠ [] := fun hnil => List.not_mem_nil (hnil ▸ hmem)
      exact Option.some.inj ((hpersonal hne).symm.trans (h.failed personKey hmem))
  · intro h
    obtain ⟨hnumbered, hsame⟩ := h
    obtain ⟨-, hlookup⟩ := reported_right person hnumbered
    refine ⟨fun attr hmem => ?_, fun attr hmem hne => ?_, ?_⟩
    · by_cases hattr : attr = personKey
      · have hne : items ≠ [] := fun hnil => List.not_mem_nil (hnil ▸ hmem)
        rw [hattr] at hmem ⊢
        rw [hpersonal hne, ← hsame hmem]
      · rw [hlookup attr hattr, if_pos hmem]
    · rw [hlookup attr hne, if_neg hmem]
    · split
      · next hnil =>
        rw [hnil]
        rfl
      · next hne => exact hpersonal hne

end

/-- **The messages of a fresh evaluation are where they belong exactly if the failing
    numbers come up as 0, 1, 2 and so on**, and `personMessage` is not an attribute that
    fails: a number that is new is given the next one. -/
theorem passes_messages_iff {X O : Type} (php : Php X O) (data : Data O) (rules : List (Key × Given)) :
    let v := construct data rules
    let items := (evaluation php v.data v.rules).items
    Reported v.personMessage items ((Public.passes php).exec v).2.messages ↔ Separable v.personMessage items := by
  intro v items
  rw [passes_exec, evaluated_messages]
  exact reported_iff

/-- The message of attribute 5 is under 0; that of `personMessage` is nowhere. -/
theorem passes_moves_number :
    let php := Session.textsAndInts
    let v := construct [] [(.int 5, .text (chars "required"))]
    let w := construct [] [(personKey, .text (chars "required"))]
    (((Public.passes php).exec v).2.messages.lookup (.int 5) = none ∧
      (((Public.passes php).exec v).2.messages.lookup (.int 0)).isSome = true) ∧
    ((Public.passes php).exec w).2.messages = [(personKey, [])] ∧
    ¬∀ (data : Data Int) (rules : List (Key × Given)),
      let v := construct data rules
      let items := (evaluation php v.data v.rules).items
      Reported v.personMessage items ((Public.passes php).exec v).2.messages := by
  refine ⟨by decide +kernel, by decide +kernel, fun hall => ?_⟩
  have hfailed := (hall [] [(.int 5, .text (chars "required"))]).failed (.int 5)
  revert hfailed
  decide +kernel

end RubbishStore.Util.Validator
