import RubbishStore.Lib.Runs
import RubbishStore.Util.NLogger

/- `Util_Nlog_NLogger` when posts fail. `flush` does not look at what a post
   returns (the fluent logger hands a failure to its own error handler), so an
   entry has had its one post when it leaves the buffer, sent or not; and a post
   that raises ends the flush with the whole buffer kept. A run goes on after a
   call that raised. Entries are numbered by the call that logged them, so that
   two entries with the same text stay two. -/
namespace RubbishStore.Util
open RubbishStore.Lib

namespace NLogger
variable {D : Type}

/-- The logger after a call, whether the call returned or raised. -/
def settled : Except (NLogger D) (NLogger D) → NLogger D
  | .ok s => s
  | .error s => s

/-- A call from outside; `shutdown` is the registered shutdown function. -/
inductive Call (D : Type) where
  | log (entry : Entry D)
  | shutdown
  deriving DecidableEq, Repr

def perform (answers : Posts) (s : NLogger D) : Call D → NLogger D
  | .log e => settled (s.log answers e.tag e.data e.force)
  | .shutdown => settled (s.shutdown answers)

/-- The entry of the call carries the number `k`. -/
def Call.number (k : Nat) : Call D → Call (Nat × D)
  | .log e => .log ⟨e.tag, (k, e.data), e.force⟩
  | .shutdown => .shutdown

def numberFrom : Nat → List (Call D) → List (Call (Nat × D))
  | _, [] => []
  | k, c :: calls => c.number k :: numberFrom (k + 1) calls

/-- What the buffer holds while the call runs. -/
def buffering (s : NLogger D) : Call D → List (String × D)
  | .log e => if s.disabled then s.logs else s.logs ++ [(e.tag, e.data)]
  | .shutdown => s.logs

/-- The posts made between `s` and the later `t`. -/
def postsSince (t s : NLogger D) : List (Post D) := t.posts.drop s.posts.length

/-! One flush. -/

section
variable (answers : Posts)

/-- The loop posts the whole buffer if every post returns, and a front part of it
    if the last of these posts raises; it touches nothing else. -/
theorem postEach_posts (s : NLogger D) (logs : List (String × D)) :
    ∃ made : List (Post D),
      Holds
        (fun t => t = { s with posts := s.posts ++ made } ∧
          made.map (fun p => (p.tag, p.data)) = logs.map (fun log => (s.tagPrefix ++ log.1, log.2)) ∧
          ∀ p ∈ made, p.outcome ≠ .raised)
        (fun t => t = { s with posts := s.posts ++ made } ∧
          (∀ p ∈ made, ∃ log ∈ logs, p.data = log.2) ∧ ∃ p ∈ made, p.outcome = .raised)
        (s.postEach answers logs) := by
  induction logs generalizing s with
  | nil => exact ⟨[], by simp [postEach]⟩
  | cons log logs ih =>
    cases hanswer : answers s.posts.length with
    | raised =>
      -- the loop ends behind this post
      refine ⟨[⟨s.tagPrefix ++ log.1, log.2, .raised⟩], ?_⟩
      have hpost : s.post answers (s.tagPrefix ++ log.1) log.2 =
          .error { s with posts := s.posts ++ [⟨s.tagPrefix ++ log.1, log.2, .raised⟩] } := by
        simp only [post, hanswer]
      rw [postEach, hpost]
      refine ⟨rfl, ?_, ?_⟩ <;> simp
    | returned sent =>
      let p : Post D := ⟨s.tagPrefix ++ log.1, log.2, .returned sent⟩
      have hpost : s.post answers (s.tagPrefix ++ log.1) log.2 =
          .ok { s with posts := s.posts ++ [p] } := by
        simp only [post, hanswer, p]
      obtain ⟨made, hmade⟩ := ih { s with posts := s.posts ++ [p] }
      refine ⟨p :: made, ?_⟩
      rw [postEach, hpost]
      refine Holds.mono hmade ?_ ?_
      · rintro t ⟨ht, hcontent, hreturned⟩
        refine ⟨by simpa using ht, ?_, ?_⟩
        · simp only [List.map_cons, hcontent, p]
        · simpa [p] using hreturned
      · rintro t ⟨ht, hsome, q, hq, hraised⟩
        refine ⟨by simpa using ht, ?_, q, List.mem_cons_of_mem p hq, hraised⟩
        intro r hr
        obtain rfl | hr := List.mem_cons.mp hr
        · exact ⟨log, List.mem_cons_self, rfl⟩
        · obtain ⟨l, hl, hdata⟩ := hsome r hr
          exact ⟨l, List.mem_cons_of_mem log hl, hdata⟩

/-- What a call does to a logger whose buffer is `logs` while the call runs: it
    posts nothing and keeps the buffer, or posts all of it and every post returns,
    or keeps it after a post that raised. -/
inductive Effect (s : NLogger D) (logs : List (String × D)) (t : NLogger D) : Prop where
  | kept (hlogs : t.logs = logs) (hposts : t.posts = s.posts)
  | flushed (made : List (Post D)) (hlogs : t.logs = []) (hposts : t.posts = s.posts ++ made)
      (hmade : made.map Post.data = logs.map Prod.snd) (hreturned : ∀ p ∈ made, p.outcome ≠ .raised)
  | broken (made : List (Post D)) (hlogs : t.logs = logs) (hposts : t.posts = s.posts ++ made)
      (hmade : ∀ p ∈ made, ∃ log ∈ logs, p.data = log.2) (hraised : ∃ p ∈ made, p.outcome = .raised)

theorem flush_effect (s : NLogger D) : Effect s s.logs (settled (s.flush answers)) := by
  obtain ⟨made, hmade⟩ := postEach_posts answers s s.logs
  rw [flush]
  cases hrun : s.postEach answers s.logs with
  | ok t =>
    rw [hrun] at hmade
    obtain ⟨ht, hcontent, hreturned⟩ := hmade
    refine .flushed made rfl (by simp [settled, ht]) ?_ hreturned
    simpa [Function.comp_def] using congrArg (List.map Prod.snd) hcontent
  | error t =>
    rw [hrun] at hmade
    obtain ⟨ht, hsome, hraised⟩ := hmade
    exact .broken made (by simp [settled, ht]) (by simp [settled, ht]) hsome hraised

/-- An effect counts from the posts, whatever the call did to the other fields first. -/
theorem Effect.of_posts {s s' t : NLogger D} {logs : List (String × D)} (h : Effect s' logs t)
    (hposts : s'.posts = s.posts) : Effect s logs t := by
  cases h with
  | kept hl hp => exact .kept hl (hp.trans hposts)
  | flushed made hl hp hm hr => exact .flushed made hl (hposts ▸ hp) hm hr
  | broken made hl hp hm hr => exact .broken made hl (hposts ▸ hp) hm hr

/-- In every case the posts are of entries of the buffer. -/
theorem Effect.made_from {s t : NLogger D} {logs : List (String × D)} (h : Effect s logs t) :
    ∃ made : List (Post D), t.posts = s.posts ++ made ∧
      ∀ p ∈ made, ∃ log ∈ logs, p.data = log.2 := by
  cases h with
  | kept hl hp => exact ⟨[], by simp [hp], by simp⟩
  | flushed made hl hp hm hr =>
    refine ⟨made, hp, ?_⟩
    intro p hmem
    have hdata := List.mem_map_of_mem (f := Post.data) hmem
    rw [hm] at hdata
    obtain ⟨log, hlog, heq⟩ := List.mem_map.mp hdata
    exact ⟨log, hlog, heq.symm⟩
  | broken made hl hp hm hr => exact ⟨made, hp, hm⟩

theorem Effect.logs_sub {s t : NLogger D} {logs : List (String × D)} (h : Effect s logs t) :
    ∀ log ∈ t.logs, log ∈ logs := by
  cases h with
  | kept hl hp => simp [hl]
  | flushed made hl hp hm hr => simp [hl]
  | broken made hl hp hm hr => simp [hl]

theorem perform_effect (s : NLogger D) (c : Call D) :
    Effect s (s.buffering c) (s.perform answers c) := by
  cases c with
  | log e =>
    by_cases hdisabled : s.disabled
    · rw [perform, NLogger.log, if_pos hdisabled, buffering, if_pos hdisabled]
      exact .kept rfl rfl
    · rw [perform, NLogger.log, if_neg hdisabled, buffering, if_neg hdisabled]
      dsimp only
      split
      · have hflush := flush_effect answers
          { s with logs := s.logs ++ [(e.tag, e.data)], logTimes := some (s.logTimes.getD 0 + 1) }
        exact hflush.of_posts rfl
      · exact .kept rfl rfl
  | shutdown =>
    rw [perform, NLogger.shutdown, buffering]
    split
    · exact flush_effect answers s
    · exact .kept rfl rfl

/-! Runs of numbered calls. -/

/-- Since `s`, whose buffer was empty, only entries numbered from `k` on have been
    buffered or posted. -/
structure NumberedFrom (k : Nat) (s t : NLogger (Nat × D)) : Prop where
  buffered : ∀ log ∈ t.logs, k ≤ log.2.1
  posted : ∃ made : List (Post (Nat × D)), t.posts = s.posts ++ made ∧ ∀ p ∈ made, k ≤ p.data.1

theorem Effect.numbered {s t t' : NLogger (Nat × D)} {logs : List (String × Nat × D)} {k : Nat}
    (h : Effect t logs t') (ht : NumberedFrom k s t) (hlogs : ∀ log ∈ logs, k ≤ log.2.1) :
    NumberedFrom k s t' := by
  obtain ⟨earlier, hearlier, hle⟩ := ht.posted
  obtain ⟨made, hmade, hfrom⟩ := h.made_from
  refine ⟨fun log hlog => hlogs log (h.logs_sub log hlog), earlier ++ made, ?_, ?_⟩
  · rw [hmade, hearlier, List.append_assoc]
  · intro p hp
    obtain hp | hp := List.mem_append.mp hp
    · exact hle p hp
    · obtain ⟨log, hlog, hdata⟩ := hfrom p hp
      rw [hdata]
      exact hlogs log hlog

/-- While the call numbered `k` runs, the buffer holds what was there and its entry. -/
theorem mem_buffering {s : NLogger (Nat × D)} {k : Nat} {c : Call D} {log : String × Nat × D}
    (h : log ∈ s.buffering (c.number k)) : log ∈ s.logs ∨ log.2.1 = k := by
  cases c with
  | shutdown => exact .inl h
  | log e =>
    simp only [Call.number, buffering] at h
    split at h
    · exact .inl h
    · obtain h | h := List.mem_append.mp h
      · exact .inl h
      · rw [List.mem_singleton.mp h]
        exact .inr rfl

/-- A call numbered `k` or later keeps to numbers from `k` on. -/
theorem NumberedFrom.perform {s t : NLogger (Nat × D)} {k j : Nat} (ht : NumberedFrom k s t)
    (hj : k ≤ j) (c : Call D) : NumberedFrom k s (t.perform answers (c.number j)) := by
  refine (perform_effect answers t (c.number j)).numbered ht ?_
  intro log hlog
  obtain hlog | rfl := mem_buffering hlog
  · exact ht.buffered log hlog
  · exact hj

theorem NumberedFrom.run {s t : NLogger (Nat × D)} {k j : Nat} (ht : NumberedFrom k s t)
    (hj : k ≤ j) (calls : List (Call D)) :
    NumberedFrom k s (run (NLogger.perform answers) t (numberFrom j calls)) := by
  induction calls generalizing t j with
  | nil => exact ht
  | cons c calls ih => exact ih (ht.perform answers hj c) (by omega)

/-- Before the call numbered `k` all numbers are below `k`. -/
structure NumberedBelow (k : Nat) (s : NLogger (Nat × D)) : Prop where
  buffered : ∀ log ∈ s.logs, log.2.1 < k
  posted : ∀ p ∈ s.posts, p.data.1 < k

theorem Effect.below {s t : NLogger (Nat × D)} {logs : List (String × Nat × D)} {k : Nat}
    (h : Effect s logs t) (hs : NumberedBelow k s) (hlogs : ∀ log ∈ logs, log.2.1 < k) :
    NumberedBelow k t := by
  obtain ⟨made, hmade, hfrom⟩ := h.made_from
  refine ⟨fun log hlog => hlogs log (h.logs_sub log hlog), ?_⟩
  intro p hp
  rw [hmade] at hp
  obtain hp | hp := List.mem_append.mp hp
  · exact hs.posted p hp
  · obtain ⟨log, hlog, hdata⟩ := hfrom p hp
    rw [hdata]
    exact hlogs log hlog

theorem NumberedBelow.perform {s : NLogger (Nat × D)} {k : Nat} (hs : NumberedBelow k s)
    (c : Call D) : NumberedBelow (k + 1) (s.perform answers (c.number k)) := by
  have hs' : NumberedBelow (k + 1) s :=
    ⟨fun log h => Nat.lt_succ_of_lt (hs.buffered log h),
      fun p h => Nat.lt_succ_of_lt (hs.posted p h)⟩
  refine (perform_effect answers s (c.number k)).below hs' ?_
  intro log hlog
  obtain hlog | rfl := mem_buffering hlog
  · exact hs'.buffered log hlog
  · exact Nat.lt_succ_self _

theorem NumberedBelow.run {s : NLogger (Nat × D)} {k : Nat} (hs : NumberedBelow k s)
    (calls : List (Call D)) :
    NumberedBelow (k + calls.length) (run (NLogger.perform answers) s (numberFrom k calls)) := by
  induction calls generalizing s k with
  | nil => exact hs
  | cons c calls ih =>
    have hlast := ih (hs.perform answers c)
    rwa [Nat.add_assoc, Nat.add_comm 1] at hlast

/-- After a call all of whose posts returned, the calls that follow post none of
    its entries again. -/
theorem not_posted_again {s t : NLogger (Nat × D)} {k : Nat} {logs : List (String × Nat × D)}
    (h : Effect s logs t) (ht : NumberedBelow k t)
    (hreturned : ∀ p ∈ t.postsSince s, p.outcome ≠ .raised) (after : List (Call D)) :
    ∀ p ∈ t.postsSince s, ∀ q ∈ (run (NLogger.perform answers) t (numberFrom k after)).postsSince t,
      q.data.1 ≠ p.data.1 := by
  intro p hp q hq
  have hbelow : p.data.1 < k := ht.posted p (List.mem_of_mem_drop hp)
  have hempty : t.logs = [] := by
    cases h with
    | kept hl hposts => simp [postsSince, hposts] at hp
    | flushed made hl hposts hm hr => exact hl
    | broken made hl hposts hm hr =>
      -- one of its posts raised
      obtain ⟨r, hr, hraised⟩ := hr
      exact absurd hraised (hreturned r (by simpa [postsSince, hposts] using hr))
  have hstart : NumberedFrom k t t := ⟨by simp [hempty], [], by simp⟩
  obtain ⟨made, hmade, hfrom⟩ := (hstart.run answers (Nat.le_refl k) after).posted
  have habove : k ≤ q.data.1 := hfrom q (by simpa [postsSince, hmade] using hq)
  omega

end

/-- An entry leaves the buffer only in a call whose posts all returned, true or
    false, the entry's own among them; and what was posted in a call whose posts all
    returned is not posted again later. -/
theorem entry_leaves_after_returned_posts (answers : Posts) (config : NLoggerConfig)
    (before : List (Call D)) (c : Call D) (after : List (Call D)) :
    let s := run (perform answers) (construct config) (numberFrom 0 before)
    let call := c.number before.length
    let t := s.perform answers call
    let u := run (perform answers) t (numberFrom (before.length + 1) after)
    (∀ log ∈ s.buffering call, log ∉ t.logs →
      (∀ p ∈ t.postsSince s, p.outcome ≠ .raised) ∧ ∃ p ∈ t.postsSince s, p.data = log.2) ∧
    ((∀ p ∈ t.postsSince s, p.outcome ≠ .raised) →
      ∀ p ∈ t.postsSince s, ∀ q ∈ u.postsSince t, q.data.1 ≠ p.data.1) := by
  intro s call t u
  have heffect : Effect s (s.buffering call) t := perform_effect answers s call
  refine ⟨?_, ?_⟩
  · intro log hlog hgone
    cases heffect with
    | kept hl hp => exact absurd (hl ▸ hlog) hgone
    | broken made hl hp hm hr => exact absurd (hl ▸ hlog) hgone
    | flushed made hl hp hm hr =>
      have hmade : t.postsSince s = made := by simp [postsSince, hp]
      rw [hmade]
      refine ⟨hr, ?_⟩
      have hdata := List.mem_map_of_mem (f := Prod.snd) hlog
      rw [← hm] at hdata
      exact List.mem_map.mp hdata
  · intro hreturned
    have hconstruct : NumberedBelow 0 (construct config : NLogger (Nat × D)) := by
      refine ⟨?_, ?_⟩ <;> cases hd : config.disabled <;> simp [construct, hd]
    have hs := hconstruct.run answers before
    rw [Nat.zero_add] at hs
    exact not_posted_again answers heffect (hs.perform answers c) hreturned after

/-- A refused entry leaves the buffer all the same; and a post that raises has the
    entries sent before it in the batch sent again. -/
theorem refused_entry_leaves_and_sent_entry_repeats :
    (let refused : Posts := fun _ => .returned false
      let s : NLogger (Nat × String) := perform refused (construct { threhold := 1 })
        (.log ⟨"a", (0, "x"), false⟩)
      s.logs = [] ∧ s.posts = [⟨"a", (0, "x"), .returned false⟩]) ∧
    (let answers : Posts := fun i => if i = 1 then .raised else .returned true
      let s : NLogger (Nat × String) := run (perform answers) (construct { threhold := 2 })
        (numberFrom 0 [.log ⟨"a", "x", false⟩, .log ⟨"b", "y", false⟩, .log ⟨"c", "z", false⟩])
      s.posts = [⟨"a", (0, "x"), .returned true⟩, ⟨"b", (1, "y"), .raised⟩,
        ⟨"a", (0, "x"), .returned true⟩, ⟨"b", (1, "y"), .returned true⟩,
        ⟨"c", (2, "z"), .returned true⟩]) := by
  decide

end NLogger

end RubbishStore.Util
