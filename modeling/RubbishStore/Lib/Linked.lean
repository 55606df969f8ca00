import Mathlib.Data.List.Nodup

/- Linked nodes. A pointer is an address or null (`none`); `next` gives the pointer
   a node holds, and nothing at an address that is not allocated. `Segment` names
   the nodes between two pointers: ending at null it is a list, ending where it
   began a ring. `walk` follows at most so many pointers and stops at null.
   A segment is read by `walk_segment` and changed by linking a new node behind
   one of its nodes (`Segment.link`). -/
namespace RubbishStore.Lib

section
variable {A : Type} (next : A → Option (Option A))

/-- `p` leads through the nodes, in this order, to `q`. -/
def Segment : Option A → List A → Option A → Prop
  | p, [], q => p = q
  | p, a :: nodes, q => p = some a ∧ ∃ p', next a = some p' ∧ Segment p' nodes q

/-- At most `n` pointers followed from `p`: where that ends, and how many were
    followed. Nothing when an address on the way is not allocated. -/
def walk : Nat → Option A → Option (Option A × Nat)
  | 0, p => some (p, 0)
  | _ + 1, none => some (none, 0)
  | n + 1, some a => do
    let (p, k) ← walk n (← next a)
    return (p, k + 1)

@[simp] theorem walk_zero (p : Option A) : walk next 0 p = some (p, 0) := by
  cases p <;> rfl

@[simp] theorem walk_null (n : Nat) : walk next n none = some (none, 0) := by
  cases n <;> rfl

theorem walk_node {n : Nat} {a : A} {p : Option A} (h : next a = some p) :
    walk next (n + 1) (some a) = (walk next n p).map fun r => (r.1, r.2 + 1) := by
  rw [walk, h]
  cases hw : walk next n p with
  | none => simp [hw]
  | some r => simp [hw]

variable {next} {p q : Option A}

theorem Segment.head {a : A} {nodes : List A} (h : Segment next p (a :: nodes) q) : p = some a :=
  h.1

theorem segment_append {as bs : List A} :
    Segment next p (as ++ bs) q ↔ ∃ r, Segment next p as r ∧ Segment next r bs q := by
  induction as generalizing p with
  | nil =>
    refine ⟨fun h => ?_, fun h => ?_⟩
    · exact ⟨p, rfl, h⟩
    · obtain ⟨r, rfl, hr⟩ := h
      exact hr
  | cons a as ih =>
    refine ⟨fun h => ?_, fun h => ?_⟩
    · obtain ⟨hp, p', hnext, htail⟩ := h
      obtain ⟨r, has, hbs⟩ := ih.mp htail
      exact ⟨r, ⟨hp, p', hnext, has⟩, hbs⟩
    · obtain ⟨r, ⟨hp, p', hnext, has⟩, hbs⟩ := h
      exact ⟨hp, p', hnext, ih.mpr ⟨r, has, hbs⟩⟩

/-- A segment only depends on what its own nodes hold. -/
theorem Segment.congr {next' : A → Option (Option A)} {nodes : List A}
    (h : Segment next p nodes q) (heq : ∀ a ∈ nodes, next' a = next a) :
    Segment next' p nodes q := by
  induction nodes generalizing p with
  | nil => exact h
  | cons a nodes ih =>
    obtain ⟨hp, p', hnext, htail⟩ := h
    refine ⟨hp, p', ?_, ih htail fun b hb => heq b (List.mem_cons_of_mem a hb)⟩
    rw [heq a List.mem_cons_self, hnext]

/-- The nodes up to null are determined. -/
theorem Segment.unique {as bs : List A} (ha : Segment next p as none)
    (hb : Segment next p bs none) : as = bs := by
  induction as generalizing p bs with
  | nil =>
    cases bs with
    | nil => rfl
    | cons b bs =>
      have hp : p = none := ha
      rw [hb.head] at hp
      exact absurd hp (Option.some_ne_none b)
  | cons a as ih =>
    obtain ⟨rfl, pa, hnexta, htaila⟩ := ha
    cases bs with
    | nil => exact absurd hb (Option.some_ne_none a)
    | cons b bs =>
      obtain ⟨hab, pb, hnextb, htailb⟩ := hb
      obtain rfl := Option.some.inj hab
      rw [hnexta] at hnextb
      obtain rfl := Option.some.inj hnextb
      rw [ih htaila htailb]

/-- A node `c` is linked in behind `b`: `b` leads to `c` and `c` to where `b` led. -/
theorem Segment.link {next' : A → Option (Option A)} {as bs : List A} {b c : A}
    (h : Segment next p (as ++ b :: bs) q) (hb : next' b = some (some c)) (hc : next' c = next b)
    (hrest : ∀ a ∈ as ++ bs, next' a = next a) :
    Segment next' p (as ++ b :: c :: bs) q := by
  obtain ⟨r, has, hr, p', hnext, hbs⟩ := segment_append.mp h
  have has' : Segment next' p as r := has.congr fun a ha => hrest a (List.mem_append_left bs ha)
  have hbs' : Segment next' p' bs q := hbs.congr fun a ha => hrest a (List.mem_append_right as ha)
  exact segment_append.mpr ⟨r, has', hr, some c, hb, rfl, p', hc.trans hnext, hbs'⟩

/-- A walk that is as long as a segment at least goes through it. -/
theorem walk_segment {nodes : List A} (h : Segment next p nodes q) (n : Nat) :
    walk next (nodes.length + n) p =
      (walk next n q).map fun r => (r.1, nodes.length + r.2) := by
  induction nodes generalizing p with
  | nil =>
    obtain rfl : p = q := h
    cases hw : walk next n p with
    | none => rw [List.length_nil, Nat.zero_add, hw, Option.map_none]
    | some r => rw [List.length_nil, Nat.zero_add, hw, Option.map_some, Nat.zero_add]
  | cons a nodes ih =>
    obtain ⟨rfl, p', hnext, htail⟩ := h
    have hlen : (a :: nodes).length + n = nodes.length + n + 1 := by
      rw [List.length_cons]
      omega
    rw [hlen, walk_node next hnext, ih htail]
    cases hw : walk next n q with
    | none => rfl
    | some r =>
      show some (r.1, nodes.length + r.2 + 1) = some (r.1, (a :: nodes).length + r.2)
      rw [List.length_cons, Nat.add_right_comm]

/-- A walk that ends on the segment ends at the node of that index. -/
theorem walk_to {as bs : List A} {b : A} (h : Segment next p (as ++ b :: bs) q) :
    walk next as.length p = some (some b, as.length) := by
  obtain ⟨r, has, hr, -⟩ := segment_append.mp h
  have hwalk := walk_segment has 0
  rw [Nat.add_zero] at hwalk
  rw [hwalk, hr, walk_zero]
  rfl

theorem walk_get {nodes : List A} {n : Nat} {a : A} (h : Segment next p nodes q)
    (ha : nodes[n]? = some a) : walk next n p = some (some a, n) := by
  obtain ⟨hn, rfl⟩ := List.getElem?_eq_some_iff.mp ha
  have hsplit : nodes = nodes.take n ++ nodes[n] :: nodes.drop (n + 1) := by
    rw [List.getElem_cons_drop, List.take_append_drop]
  rw [hsplit] at h
  have hwalk := walk_to h
  rwa [List.length_take, Nat.min_eq_left (Nat.le_of_lt hn)] at hwalk

/-- A walk longer than a list ends at its null. -/
theorem walk_past {nodes : List A} (h : Segment next p nodes none) (n : Nat) :
    walk next (nodes.length + n) p = some (none, nodes.length) := by
  rw [walk_segment h, walk_null]
  rfl

/-- In a ring whole rounds lead back. -/
theorem walk_ring {nodes : List A} (h : Segment next p nodes p) (rounds n : Nat) :
    walk next (rounds * nodes.length + n) p =
      (walk next n p).map fun r => (r.1, rounds * nodes.length + r.2) := by
  induction rounds with
  | zero =>
    cases hw : walk next n p with
    | none => rw [Nat.zero_mul, Nat.zero_add, hw, Option.map_none]
    | some r => rw [Nat.zero_mul, Nat.zero_add, hw, Option.map_some, Nat.zero_add]
  | succ rounds ih =>
    have hlen : (rounds + 1) * nodes.length + n = nodes.length + (rounds * nodes.length + n) := by
      rw [Nat.succ_mul]
      omega
    rw [hlen, walk_segment h, ih]
    cases hw : walk next n p with
    | none => rfl
    | some r =>
      have hsum : nodes.length + (rounds * nodes.length + r.2) =
          (rounds + 1) * nodes.length + r.2 := by
        rw [Nat.succ_mul]
        omega
      show some (r.1, nodes.length + (rounds * nodes.length + r.2)) =
        some (r.1, (rounds + 1) * nodes.length + r.2)
      rw [hsum]

end

end RubbishStore.Lib
