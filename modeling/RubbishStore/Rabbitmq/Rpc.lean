import RubbishStore.Lib.PhpNumber
import RubbishStore.Lib.Runs

/- The RPC client and server over RabbitMQ. The client publishes a request under a
   new correlation id and waits until a reply with that id has filled its response
   slot; the server answers a request with the square of its number, under the id of
   the request. Requests and replies stay in flight: each may be taken from its
   queue late, in any order and more than once. A request is known by its number, and
   a reply carries, beside what is sent, the number of the request it answers. -/
namespace RubbishStore.Rabbitmq
open RubbishStore.Lib
open RubbishStore.Lib.PhpNumber

/-- What depends on the installation: the text of a float, and how `intval` reads a
    text with a point or an exponent. -/
structure Platform where
  floatText : Int → List Char
  decimal : List Char → PhpInt

variable {Id : Type}

/-- A message to `rpc_queue`. -/
structure Request (Id : Type) where
  correlationId : Id
  body : List Char
  deriving DecidableEq

/-- A message to the callback queue of the client. -/
structure Reply (Id : Type) where
  request : Nat
  correlationId : Id
  body : List Char
  deriving DecidableEq

/-! The server. -/

def fib (n : PhpInt) : Number := mul n n

/-- The reply to the request with the number `k`. -/
def callback (php : Platform) (k : Nat) (req : Request Id) : Reply Id :=
  let n := intval php.decimal req.body
  ⟨k, req.correlationId, (fib n).text php.floatText⟩

/-! The client, and the messages in flight. -/

structure State (Id : Type) where
  response : Option (List Char) := none
  corrId : Option Id := none
  /-- The client is in the waiting loop of `call`. -/
  calling : Bool := false
  requests : List (Request Id) := []
  replies : List (Reply Id) := []
  /-- What the calls have returned, each with the number of its request. -/
  returned : List (Nat × PhpInt) := []
  deriving DecidableEq

/-- `!$this->response`: null, '' and '0' are false. -/
def noResponse : Option (List Char) → Bool
  | none => true
  | some s => s = [] || s = ['0']

def onResponse [DecidableEq Id] (s : State Id) (rep : Reply Id) : State Id :=
  if some rep.correlationId = s.corrId then { s with response := some rep.body } else s

inductive Action (Id : Type) where
  /-- `call` up to its loop, with the text of its argument and what `uniqid` gives. -/
  | call (n : List Char) (uniqid : Id)
  /-- The server takes a request. -/
  | serve (k : Nat)
  /-- A reply reaches the client. -/
  | deliver (i : Nat)
  /-- The test of the loop, and the return behind it. -/
  | check

/-- Replies may come at any time, also between two calls. -/
def step [DecidableEq Id] (php : Platform) (s : State Id) : Action Id → State Id
  | .call n uniqid =>
    if s.calling ∨ uniqid ∈ s.requests.map Request.correlationId then s
    else
      { s with
        response := none
        corrId := some uniqid
        calling := true
        requests := s.requests ++ [⟨uniqid, n⟩] }
  | .serve k =>
    match s.requests[k]? with
    | none => s
    | some req => { s with replies := s.replies ++ [callback php k req] }
  | .deliver i =>
    match s.replies[i]? with
    | none => s
    | some rep => onResponse s rep
  | .check =>
    if s.calling = false ∨ noResponse s.response then s
    else
      { s with
        calling := false
        returned := s.returned ++
          [(s.requests.length - 1, intval php.decimal (s.response.getD []))] }

/-- The response slot is filled by a reply to the latest request, and what calls have
    returned was read from replies to their own requests. -/
structure Inv (php : Platform) (s : State Id) : Prop where
  ids : (s.requests.map Request.correlationId).Nodup
  current : s.corrId = s.requests.getLast?.map Request.correlationId
  replies : ∀ rep ∈ s.replies, ∃ req, s.requests[rep.request]? = some req ∧
    rep = callback php rep.request req
  response : ∀ body, s.response = some body →
    ∃ rep ∈ s.replies, rep.request + 1 = s.requests.length ∧ rep.body = body
  returned : ∀ k v, (k, v) ∈ s.returned → ∃ rep ∈ s.replies, rep.request = k ∧
    noResponse (some rep.body) = false ∧ v = intval php.decimal rep.body

variable {php : Platform} {s : State Id}

/-- A reply that comes under the expected id answers the latest request. -/
theorem Inv.request_of_id (h : Inv php s) {rep : Reply Id} (hrep : rep ∈ s.replies)
    (hid : some rep.correlationId = s.corrId) : rep.request + 1 = s.requests.length := by
  obtain ⟨req, hreq, heq⟩ := h.replies rep hrep
  have hsame : rep.correlationId = req.correlationId := by rw [heq]; rfl
  obtain ⟨hlt, -⟩ := List.getElem?_eq_some_iff.mp hreq
  have hget : (s.requests.map Request.correlationId)[rep.request]? =
      (s.requests.map Request.correlationId)[s.requests.length - 1]? := by
    rw [List.getElem?_map, List.getElem?_map, ← List.getLast?_eq_getElem?, ← h.current, ← hid,
      hreq, hsame, Option.map_some]
  -- no id comes twice among the requests
  have hindex := (List.getElem?_inj (by simpa using hlt) h.ids).mp hget
  omega

theorem Inv.eq_callback (h : Inv php s) {rep : Reply Id} (hrep : rep ∈ s.replies) {req : Request Id}
    (hreq : s.requests[rep.request]? = some req) : rep = callback php rep.request req := by
  obtain ⟨req', hreq', heq⟩ := h.replies rep hrep
  obtain rfl : req = req' := Option.some.inj (hreq.symm.trans hreq')
  exact heq

theorem inv_start : Inv php ({} : State Id) := by
  refine ⟨?_, ?_, ?_, ?_, ?_⟩ <;> simp

theorem Inv.call (h : Inv php s) (n : List Char) {uniqid : Id}
    (hnew : uniqid ∉ s.requests.map Request.correlationId) :
    Inv php { s with
      response := none
      corrId := some uniqid
      calling := true
      requests := s.requests ++ [⟨uniqid, n⟩] } := by
  refine ⟨?_, ?_, ?_, ?_, h.returned⟩
  · rw [List.map_append, List.nodup_append]
    refine ⟨h.ids, by simp, ?_⟩
    rintro a ha b hb rfl
    obtain rfl : a = uniqid := by simpa using hb
    exact hnew ha
  · simp
  · intro rep hrep
    obtain ⟨req, hreq, heq⟩ := h.replies rep hrep
    obtain ⟨hlt, -⟩ := List.getElem?_eq_some_iff.mp hreq
    exact ⟨req, by rw [List.getElem?_append_left hlt, hreq], heq⟩
  · simp

theorem Inv.serve (h : Inv php s) {k : Nat} {req : Request Id} (hreq : s.requests[k]? = some req) :
    Inv php { s with replies := s.replies ++ [callback php k req] } := by
  refine ⟨h.ids, h.current, ?_, ?_, ?_⟩
  · intro rep hrep
    obtain hrep | hrep := List.mem_append.mp hrep
    · exact h.replies rep hrep
    · rw [List.mem_singleton] at hrep
      subst hrep
      exact ⟨req, hreq, rfl⟩
  · intro body hbody
    obtain ⟨rep, hrep, hown⟩ := h.response body hbody
    exact ⟨rep, List.mem_append_left _ hrep, hown⟩
  · intro k v hv
    obtain ⟨rep, hrep, hown⟩ := h.returned k v hv
    exact ⟨rep, List.mem_append_left _ hrep, hown⟩

theorem Inv.check (h : Inv php s) (hresponse : noResponse s.response = false) :
    Inv php { s with
      calling := false
      returned := s.returned ++
        [(s.requests.length - 1, intval php.decimal (s.response.getD []))] } := by
  refine ⟨h.ids, h.current, h.replies, h.response, ?_⟩
  intro k v hv
  obtain hv | hv := List.mem_append.mp hv
  · exact h.returned k v hv
  · cases hbody : s.response with
    | none => simp [hbody, noResponse] at hresponse
    | some body =>
      obtain ⟨rep, hrep, hown, rfl⟩ := h.response body hbody
      rw [hbody] at hv hresponse
      simp only [Option.getD_some, List.mem_singleton, Prod.mk.injEq] at hv
      exact ⟨rep, hrep, by omega, hresponse, hv.2⟩

variable [DecidableEq Id]

theorem Inv.onResponse (h : Inv php s) {rep : Reply Id} (hrep : rep ∈ s.replies) :
    Inv php (onResponse s rep) := by
  rw [Rabbitmq.onResponse]
  split
  · next hid =>
    refine ⟨h.ids, h.current, h.replies, ?_, h.returned⟩
    rintro body ⟨rfl⟩
    exact ⟨rep, hrep, h.request_of_id hrep hid, rfl⟩
  · exact h

theorem Inv.step (h : Inv php s) (a : Action Id) : Inv php (step php s a) := by
  cases a with
  | call n uniqid =>
    rw [Rabbitmq.step]
    split
    · exact h
    · next hfree => exact h.call n (fun hmem => hfree (.inr hmem))
  | serve k =>
    cases hreq : s.requests[k]? with
    | none => simpa only [Rabbitmq.step, hreq] using h
    | some req => simpa only [Rabbitmq.step, hreq] using h.serve hreq
  | deliver i =>
    cases hrep : s.replies[i]? with
    | none => simpa only [Rabbitmq.step, hrep] using h
    | some rep =>
      simpa only [Rabbitmq.step, hrep] using h.onResponse (List.mem_of_getElem? hrep)
  | check =>
    rw [Rabbitmq.step]
    split
    · exact h
    · next hexit => exact h.check (by simpa using fun hno => hexit (.inr hno))

theorem Inv.run (h : Inv php s) (actions : List (Action Id)) :
    Inv php (run (Rabbitmq.step php) s actions) :=
  run_inv h atEach_true fun _ a hs _ => hs.step a

/-- What a call returns is `intval` of a reply that the server made for the request
    of that call; and a reply to another request leaves the client as it is. -/
theorem returned_of_own_reply (php : Platform) (actions : List (Action Id)) :
    let s := run (step php) {} actions
    (∀ k v, (k, v) ∈ s.returned → ∃ req, s.requests[k]? = some req ∧
      callback php k req ∈ s.replies ∧ v = intval php.decimal (callback php k req).body) ∧
    ∀ rep ∈ s.replies, rep.request + 1 ≠ s.requests.length → onResponse s rep = s := by
  intro s
  have h : Inv php s := inv_start.run actions
  refine ⟨?_, ?_⟩
  · intro k v hv
    obtain ⟨rep, hrep, rfl, -, hvalue⟩ := h.returned k v hv
    obtain ⟨req, hreq, heq⟩ := h.replies rep hrep
    exact ⟨req, hreq, heq ▸ hrep, heq ▸ hvalue⟩
  · intro rep hrep hother
    rw [onResponse, if_neg fun hid => hother (h.request_of_id hrep hid)]

/-! Whether the loop ends. -/

/-- A request stays under its number, and what has been returned stays. -/
theorem step_grows (s : State Id) (a : Action Id) {k : Nat} :
    (∀ req, s.requests[k]? = some req → (step php s a).requests[k]? = some req) ∧
    ∀ v, (k, v) ∈ s.returned → (k, v) ∈ (step php s a).returned := by
  cases a with
  | call n uniqid =>
    rw [step]
    split
    · exact ⟨fun _ h => h, fun _ h => h⟩
    · refine ⟨fun req hreq => ?_, fun _ h => h⟩
      obtain ⟨hlt, -⟩ := List.getElem?_eq_some_iff.mp hreq
      rw [List.getElem?_append_left hlt, hreq]
  | serve j =>
    rw [step]
    split <;> exact ⟨fun _ h => h, fun _ h => h⟩
  | deliver i =>
    rw [step]
    split
    · exact ⟨fun _ h => h, fun _ h => h⟩
    · rw [onResponse]
      split <;> exact ⟨fun _ h => h, fun _ h => h⟩
  | check =>
    rw [step]
    split
    · exact ⟨fun _ h => h, fun _ h => h⟩
    · exact ⟨fun _ h => h, fun _ h => List.mem_append_left _ h⟩

theorem run_request (actions : List (Action Id)) {k : Nat} {req : Request Id}
    (h : s.requests[k]? = some req) : (run (step php) s actions).requests[k]? = some req := by
  induction actions generalizing s with
  | nil => exact h
  | cons a actions ih => exact ih ((step_grows s a).1 req h)

/-- The call with the request `k` has returned, or is open and its loop will end at
    the next test. -/
def Ends (k : Nat) (s : State Id) : Prop :=
  (∃ v, (k, v) ∈ s.returned) ∨
    (s.calling = true ∧ s.requests.length = k + 1 ∧ noResponse s.response = false)

/-- While the call is open, only replies to its own request get into the slot. -/
theorem Inv.onResponse_ends (h : Inv php s) {k : Nat} {req : Request Id}
    (hreq : s.requests[k]? = some req) (hbody : noResponse (some (callback php k req).body) = false)
    (hends : Ends k s) {rep : Reply Id} (hrep : rep ∈ s.replies) : Ends k (Rabbitmq.onResponse s rep) := by
  rw [Rabbitmq.onResponse]
  split
  · next hid =>
    obtain hreturned | ⟨hcalling, hlength, -⟩ := hends
    · exact .inl hreturned
    · have hown := h.request_of_id hrep hid
      obtain rfl : k = rep.request := by omega
      rw [← h.eq_callback hrep hreq] at hbody
      exact .inr ⟨hcalling, hlength, hbody⟩
  · exact hends

/-- The reply to the request of an open call ends it. -/
theorem Inv.ends_deliver (h : Inv php s) {k i : Nat} {req : Request Id} (hcalling : s.calling = true)
    (hlength : s.requests.length = k + 1) (hreq : s.requests[k]? = some req)
    (hbody : noResponse (some (callback php k req).body) = false)
    (hreply : s.replies[i]?.map Reply.request = some k) : Ends k (Rabbitmq.step php s (.deliver i)) := by
  obtain ⟨rep, hrep, rfl⟩ := Option.map_eq_some_iff.mp hreply
  have heq := h.eq_callback (List.mem_of_getElem? hrep) hreq
  have hcurrent : some rep.correlationId = s.corrId := by
    rw [h.current, List.getLast?_eq_getElem?, hlength, Nat.add_sub_cancel, hreq, heq]
    rfl
  rw [← heq] at hbody
  simp only [Rabbitmq.step, hrep, Rabbitmq.onResponse, if_pos hcurrent]
  exact .inr ⟨hcalling, hlength, hbody⟩

theorem Ends.check {k : Nat} (h : Ends k s) : ∃ v, (k, v) ∈ (step php s .check).returned := by
  obtain ⟨v, hv⟩ | ⟨hcalling, hlength, hresponse⟩ := h
  · exact ⟨v, (step_grows s .check).2 v hv⟩
  · rw [step, if_neg (by simp [hcalling, hresponse])]
    refine ⟨intval php.decimal (s.response.getD []), List.mem_append_right _ ?_⟩
    rw [hlength]
    exact List.mem_singleton_self _

theorem Inv.step_ends (h : Inv php s) {k : Nat} {req : Request Id}
    (hreq : s.requests[k]? = some req) (hbody : noResponse (some (callback php k req).body) = false)
    (hends : Ends k s) (a : Action Id) : Ends k (Rabbitmq.step php s a) := by
  cases a with
  | call n uniqid =>
    obtain ⟨v, hv⟩ | hopen := hends
    · exact .inl ⟨v, (step_grows s (.call n uniqid)).2 v hv⟩
    · -- the client is still in the loop, so no other call begins
      rw [Rabbitmq.step, if_pos (.inl hopen.1)]
      exact .inr hopen
  | serve j =>
    rw [Rabbitmq.step]
    split <;> exact hends
  | deliver i =>
    cases hrep : s.replies[i]? with
    | none => simpa only [Rabbitmq.step, hrep] using hends
    | some rep =>
      simpa only [Rabbitmq.step, hrep] using
        h.onResponse_ends hreq hbody hends (List.mem_of_getElem? hrep)
  | check => exact .inl hends.check

theorem Inv.run_ends (h : Inv php s) {k : Nat} {req : Request Id}
    (hreq : s.requests[k]? = some req) (hbody : noResponse (some (callback php k req).body) = false)
    (hends : Ends k s) (actions : List (Action Id)) :
    Ends k (Lib.run (Rabbitmq.step php) s actions) := by
  induction actions generalizing s with
  | nil => exact hends
  | cons a actions ih =>
    exact ih (h.step a) ((step_grows s a).1 req hreq) (h.step_ends hreq hbody hends a)

/-! The reply to an integer. -/

omit [DecidableEq Id] in
theorem callback_body (php : Platform) (k : Nat) (id : Id) (n : PhpInt) :
    (callback php k ⟨id, text n.1⟩).body = (fib n).text php.floatText := by
  rw [callback, intval_text]

omit [DecidableEq Id] in
/-- What the call of an integer has returned was read from the reply to it. -/
theorem Inv.returned_fib (h : Inv php s) {k : Nat} {id : Id} {n v : PhpInt}
    (hreq : s.requests[k]? = some ⟨id, text n.1⟩) (hv : (k, v) ∈ s.returned) :
    noResponse (some ((fib n).text php.floatText)) = false ∧
      v = intval php.decimal ((fib n).text php.floatText) := by
  obtain ⟨rep, hrep, rfl, htrue, rfl⟩ := h.returned k v hv
  have hbody : rep.body = (fib n).text php.floatText := by
    rw [h.eq_callback hrep hreq, callback_body]
  rw [← hbody]
  exact ⟨htrue, rfl⟩

/-- A square that is an integer is read back, and its text is '0' for zero only. -/
theorem fib_text (php : Platform) {n : PhpInt} (h : n.1 * n.1 ≤ 9223372036854775807) :
    (intval php.decimal ((fib n).text php.floatText)).1 = (fib n).value ∧
    (noResponse (some ((fib n).text php.floatText)) = true ↔ n.1 = 0) := by
  obtain ⟨m, hm, hmul⟩ := mul_self_int n h
  rw [fib, hmul, Number.text, intval_text, noResponse, Number.value]
  refine ⟨rfl, ?_⟩
  rw [Bool.or_eq_true, decide_eq_true_eq, decide_eq_true_eq, text_eq_zero_iff, hm]
  have hsquare : n.1 * n.1 = 0 ↔ n.1 = 0 := by
    rw [Int.mul_eq_zero, or_self]
  simp [text_ne_nil, hsquare]

/-- The reply to the call of an integer `n` has come: whatever else comes, at the next
    test of the loop the call has returned `fib n`, if and only if `n` is not zero and
    its square is an integer. -/
theorem returns_fib_iff (php : Platform) (before later : List (Action Id)) (n : PhpInt) (id : Id)
    (k i : Nat) :
    let s := run (step php) {} before
    s.calling = true → s.requests.length = k + 1 → s.requests[k]? = some ⟨id, text n.1⟩ →
    s.replies[i]?.map Reply.request = some k →
    let t := run (step php) s (.deliver i :: later ++ [.check])
    ((∃ v, (k, v) ∈ t.returned ∧ v.1 = (fib n).value) ↔
      n.1 ≠ 0 ∧ n.1 * n.1 ≤ 9223372036854775807) := by
  intro s hcalling hlength hreq hreply t
  have h : Inv php s := inv_start.run before
  have ht : Inv php t := h.run _
  have hreqt : t.requests[k]? = some ⟨id, text n.1⟩ := run_request _ hreq
  refine ⟨?_, ?_⟩
  · rintro ⟨v, hv, hvalue⟩
    obtain ⟨htrue, rfl⟩ := ht.returned_fib hreqt hv
    -- a larger square is not an integer, and `intval` gives one
    have hfits : n.1 * n.1 ≤ 9223372036854775807 := by
      have hlarge := mul_self_float n
      have hbound := (intval php.decimal ((fib n).text php.floatText)).2
      rw [fib] at hvalue hbound
      omega
    refine ⟨fun hzero => ?_, hfits⟩
    rw [(fib_text php hfits).2.mpr hzero] at htrue
    cases htrue
  · rintro ⟨hne, hfits⟩
    have hbody : noResponse (some (callback php k ⟨id, text n.1⟩).body) = false := by
      rw [callback_body]
      exact Bool.eq_false_iff.mpr fun hno => hne ((fib_text php hfits).2.mp hno)
    obtain ⟨v, hv⟩ : ∃ v, (k, v) ∈ t.returned := by
      have hends := h.ends_deliver hcalling hlength hreq hbody hreply
      have hlater := (h.step (.deliver i)).run_ends ((step_grows s _).1 _ hreq) hbody hends later
      have ht' : t = step php (run (step php) (step php s (.deliver i)) later) .check := by
        simp only [t, run_cons, run_append, run_nil]
      rw [ht']
      exact hlater.check
    obtain ⟨-, rfl⟩ := ht.returned_fib hreqt hv
    exact ⟨_, hv, (fib_text php hfits).1⟩

theorem returns_fib_iff_three :
    let php : Platform := ⟨fun _ => [], fun _ => ⟨0, by decide⟩⟩
    let before : List (Action Nat) := [.call (text 3) 100, .serve 0]
    let t := run (step php) (run (step php) {} before) [.deliver 0, .serve 0, .deliver 1, .check]
    (∃ v, (0, v) ∈ t.returned ∧ v.1 = (fib ⟨3, by decide⟩).value) ↔
      (3 : Int) ≠ 0 ∧ (3 : Int) * 3 ≤ 9223372036854775807 :=
  returns_fib_iff ⟨fun _ => [], fun _ => ⟨0, by decide⟩⟩ [.call (text 3) 100, .serve 0]
    [.serve 0, .deliver 1] ⟨3, by decide⟩ 100 0 0 rfl rfl rfl rfl

/-- The reply to the call of 0 is taken for none, however often it comes. -/
theorem waits_on_after_zero :
    let php : Platform := ⟨fun _ => [], fun _ => ⟨0, by decide⟩⟩
    let t : State Nat := run (step php) {} [.call (text 0) 100, .serve 0, .deliver 0, .check,
      .deliver 0, .check]
    t.calling = true ∧ t.response = some ['0'] ∧ t.returned = [] ∧
      (fib ⟨0, by decide⟩).value = 0 := by
  decide

end RubbishStore.Rabbitmq
