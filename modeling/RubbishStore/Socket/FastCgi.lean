import Mathlib.Data.Int.Order.Basic
import RubbishStore.Socket.Unp

/- `doit` of `fastcgi_server.c`: one worker thread, which answers request after request.
   The body is stored in a buffer that is never cleared, a NUL is stored one place
   before the length the client has announced, and the buffer is printed as a string.
   Nothing checks that length: a store outside the buffer is undefined (`none`), as
   is a length that was not sent at all. -/
namespace RubbishStore.Socket

/-! `strtol(s, NULL, 10)`, and its conversion to `int`. -/

def isSpace (b : UInt8) : Bool := b = 32 || (9 ≤ b && b ≤ 13)

def isDigit (b : UInt8) : Bool := 48 ≤ b && b ≤ 57

/-- The number that the leading digits write: 0 if there are none. -/
def leadingDigits (s : Bytes) : Nat :=
  (s.takeWhile isDigit).foldl (fun n b => 10 * n + (b.toNat - 48)) 0

/-- An optional sign before the digits. -/
def signed : Bytes → Int
  | 45 :: s => -leadingDigits s
  | 43 :: s => leadingDigits s
  | s => leadingDigits s

/-- What does not fit a `long` of 64 bits becomes the nearest one that does. -/
def strtol (s : Bytes) : Int :=
  max (-9223372036854775808) (min 9223372036854775807 (signed (s.dropWhile isSpace)))

/-- A `long` as an `int` of 32 bits. -/
def toInt (x : Int) : Int := x.bmod 4294967296

/-! The worker. -/

/-- `#define THREAD_COUNT 20` -/
def THREAD_COUNT : Nat := 20

/-- `int maxline = 1024;` -/
def maxline : Nat := 1024

/-- `FCGX_GetStr`: what is stored of a body, reading up to `n` bytes of it, and less only
    at its end. -/
structure Fcgx where
  getStr : Nat → Bytes → Bytes
  getStr_eq : ∀ n body, getStr n body = body.take n

/-- What `FCGX_GetParam` gives (NULL for what was not sent), and the body. -/
structure FcgxRequest where
  getParam : String → Option Bytes
  body : Bytes

/-- `char input[1024];` -/
def Input : Type := { bytes : Bytes // bytes.length = maxline }

namespace Input
variable (F : Fcgx) (input : Input)

/-- `FCGX_GetStr(input, maxline, request.in);` -/
def store (body : Bytes) : Input :=
  ⟨overwrite input.1 (F.getStr maxline body), by
    have hlength := input.2
    rw [overwrite, F.getStr_eq, List.length_append, List.length_drop, List.length_take, hlength]
    omega⟩

/-- `input[len-1] = '\0';` -/
def terminate (len : Int) : Option Input :=
  if 0 ≤ len - 1 ∧ len - 1 < maxline then
    some ⟨input.1.set (len - 1).toNat 0, by rw [List.length_set, input.2]⟩
  else none

end Input

/-- The variables of a thread that outlive a request. -/
structure Worker where
  threadId : Fin THREAD_COUNT
  pid : Int
  input : Input

/-- What is printed of a request. -/
structure Reply where
  serverName : Bytes
  len : Int
  input : Bytes
  counts : List Int

/-- What follows the store: the thread and the common counts, and the reply. -/
def Worker.answer (w : Worker) (counts : List Int) (request : FcgxRequest) (len : Int)
    (input : Input) : Worker × List Int × Reply :=
  let counts := counts.modify w.threadId (· + 1)
  let reply : Reply :=
    { serverName := (request.getParam "SERVER_NAME").getD "?".toUTF8.toList
      len := len
      input := cstring input.1
      counts := counts.take THREAD_COUNT }
  ({ w with input := input }, counts, reply)

/-- One request. -/
def Worker.doit (F : Fcgx) (w : Worker) (counts : List Int) (request : FcgxRequest) :
    Option (Worker × List Int × Reply) := do
  let len := toInt (strtol (← request.getParam "CONTENT_LENGTH"))
  let input ← (w.input.store F request.body).terminate len
  return w.answer counts request len input

/-- `"%5d "` -/
def countText (n : Int) : String := String.ofList ((toString n).toList.leftpad 5 ' ') ++ " "

/-- The text of a reply. -/
def Worker.page (w : Worker) (reply : Reply) : Bytes :=
  ("Content-type: text/html\r\n" ++ "\r\n" ++
    "<title>FastCGI Hello! (multi-threaded C, fcgiapp library)</title>" ++
    "<h1>FastCGI Hello! (multi-threaded C, fcgiapp library)</h1>" ++
    "Thread " ++ toString w.threadId.val ++ ", Process " ++ toString w.pid ++ "<p>" ++
    "Request counts for " ++ toString THREAD_COUNT ++
    " threads running on host o<i>").toUTF8.toList ++ reply.serverName ++
  ("</i></p>" ++ "<p>len : " ++ toString reply.len ++ "</p>" ++ "<p>input : ").toUTF8.toList ++
  reply.input ++
  ("</p>" ++ String.join (reply.counts.map countText)).toUTF8.toList

/-! What is echoed. -/

/-- The store stays in the buffer, and the body is echoed as far as the length says and
    the buffer can hold a string. -/
def Worker.Echoes (F : Fcgx) (w : Worker) (counts : List Int) (request : FcgxRequest) : Prop :=
  ∃ contentLength w' counts' reply, request.getParam "CONTENT_LENGTH" = some contentLength ∧
    w.doit F counts request = some (w', counts', reply) ∧
    reply.input = request.body.take (min (strtol contentLength) 1023).toNat

/-- The length lies between 1 and 1024, and what is to be echoed ends, without a NUL in
    it, at the place that is written or at a NUL before that. -/
def Input.Fits (input : Input) (body : Bytes) (contentLength : Int) : Prop :=
  let len := toInt contentLength
  let echo := body.take (min contentLength 1023).toNat
  (1 ≤ len ∧ len ≤ maxline) ∧ 0 ∉ echo ∧
    (echo.length = len - 1 ∨
      echo.length < len - 1 ∧ (overwrite input.1 (body.take maxline))[echo.length]? = some 0)

/-- A string is no longer than the place of a NUL. -/
theorem cstring_length_le {buf : Bytes} {k : Nat} (h : buf[k]? = some 0) :
    (cstring buf).length ≤ k := by
  by_contra hlt
  have hprefix : cstring buf <+: buf := List.takeWhile_prefix _
  have hk : k < (cstring buf).length := Nat.not_le.mp hlt
  have heq : (cstring buf)[k] = 0 := by
    have hget := hprefix.getElem hk
    rw [List.getElem?_eq_getElem (Nat.lt_of_lt_of_le hk hprefix.length_le)] at h
    rw [hget]
    exact Option.some.inj h
  have hne := List.mem_takeWhile_imp (List.getElem_mem hk)
  rw [heq] at hne
  simp at hne

/-- What a terminated buffer shows. -/
theorem cstring_set_iff {buf echo : Bytes} {k : Nat} (hk : k < buf.length) (hpre : echo <+: buf) :
    cstring (buf.set k 0) = echo ↔ 0 ∉ echo ∧
      (echo.length = k ∨ echo.length < k ∧ buf[echo.length]? = some 0) := by
  have hnul : (buf.set k 0)[k]? = some 0 := List.getElem?_set_self hk
  by_cases hle : echo.length ≤ k
  · -- the bytes to be echoed are still there
    obtain ⟨rest, rfl⟩ := hpre
    have hset : (echo ++ rest).set k 0 = echo ++ rest.set (k - echo.length) 0 :=
      List.set_append_right _ _ hle
    have hzero : 0 ∈ (echo ++ rest).set k 0 := List.mem_of_getElem? hnul
    have hhead : (rest.set (k - echo.length) 0).head? = ((echo ++ rest).set k 0)[echo.length]? := by
      rw [hset, List.getElem?_append_right (Nat.le_refl _), Nat.sub_self, List.head?_eq_getElem?]
    have hiff := cstring_append_iff echo (rest.set (k - echo.length) 0)
    rw [← hset, hhead] at hiff
    have hbehind : ((echo ++ rest).set k 0)[echo.length]? = some 0 ↔
        echo.length = k ∨ echo.length < k ∧ (echo ++ rest)[echo.length]? = some 0 := by
      by_cases heq : echo.length = k
      · rw [heq]
        exact ⟨fun _ => Or.inl rfl, fun _ => hnul⟩
      · rw [List.getElem?_set_ne (Ne.symm heq)]
        exact ⟨fun h => Or.inr ⟨Nat.lt_of_le_of_ne hle heq, h⟩, fun h => (h.resolve_left heq).2⟩
    rw [← hbehind, ← hiff]
    exact ⟨fun h => ⟨hzero, h⟩, fun h => h.2⟩
  · have hlong := cstring_length_le hnul
    refine ⟨fun heq => ?_, fun h => ?_⟩
    · rw [heq] at hlong
      exact absurd hlong hle
    · omega

section
variable (F : Fcgx) (input : Input) (body : Bytes)

theorem Input.store_eq : (input.store F body).1 = overwrite input.1 (body.take maxline) := by
  show overwrite input.1 (F.getStr maxline body) = _
  rw [F.getStr_eq]

/-- What is to be echoed begins the buffer. -/
theorem echo_begins {n : Nat} (hn : n ≤ maxline) :
    body.take n <+: overwrite input.1 (body.take maxline) :=
  (List.take_prefix_take_left hn).trans (List.prefix_append _ _)

/-- The store and the echo, in a buffer that holds the body. -/
theorem Input.terminate_iff (contentLength : Int) :
    (∃ input', (input.store F body).terminate (toInt contentLength) = some input' ∧
        cstring input'.1 = body.take (min contentLength 1023).toNat) ↔
      input.Fits body contentLength := by
  have hstored := input.store_eq F body
  have hlength : (overwrite input.1 (body.take maxline)).length = maxline := by
    rw [← hstored]
    exact (input.store F body).2
  have hecho : (min contentLength 1023).toNat ≤ maxline := by
    show _ ≤ 1024
    omega
  rw [Input.Fits]
  generalize toInt contentLength = len
  by_cases hin : 0 ≤ len - 1 ∧ len - 1 < maxline
  · have hk : (len - 1).toNat < (overwrite input.1 (body.take maxline)).length := by
      rw [hlength]
      omega
    have hset := cstring_set_iff hk (echo_begins input body hecho)
    have hplace : ((len - 1).toNat : Int) = len - 1 := Int.toNat_of_nonneg hin.1
    have hsome : (input.store F body).terminate len =
        some ⟨(input.store F body).1.set (len - 1).toNat 0, by
          rw [List.length_set, (input.store F body).2]⟩ := if_pos hin
    rw [hsome, ← hplace, Int.natCast_inj, Int.ofNat_lt, ← hset, ← hstored]
    refine ⟨fun h => ⟨?_, ?_⟩, fun h => ⟨_, rfl, h.2⟩⟩
    · omega
    · obtain ⟨input', heq, hecho⟩ := h
      obtain rfl := Option.some.inj heq
      exact hecho
  · have hnone : (input.store F body).terminate len = none := if_neg hin
    rw [hnone]
    refine ⟨fun h => ?_, fun h => ?_⟩
    · obtain ⟨input', heq, -⟩ := h
      exact absurd heq.symm (Option.some_ne_none _)
    · exact absurd ⟨by omega, by omega⟩ hin

end

theorem Worker.doit_eq (F : Fcgx) (w : Worker) (counts : List Int) {request : FcgxRequest}
    {contentLength : Bytes} (hparam : request.getParam "CONTENT_LENGTH" = some contentLength) :
    w.doit F counts request =
      ((w.input.store F request.body).terminate (toInt (strtol contentLength))).map
        (w.answer counts request (toInt (strtol contentLength))) := by
  rw [Worker.doit, hparam]
  exact (Option.map_eq_bind ..).symm

/-- Whatever the client sends and whatever the thread has served before: the echo is
    right exactly if a length was sent and everything fits. -/
theorem echoes_iff (F : Fcgx) (w : Worker) (counts : List Int) (request : FcgxRequest) :
    w.Echoes F counts request ↔ ∃ contentLength,
      request.getParam "CONTENT_LENGTH" = some contentLength ∧
        w.input.Fits request.body (strtol contentLength) := by
  refine ⟨fun h => ?_, fun h => ?_⟩
  · obtain ⟨contentLength, w', counts', reply, hparam, hdoit, hecho⟩ := h
    refine ⟨contentLength, hparam, (w.input.terminate_iff F request.body _).mp ?_⟩
    rw [w.doit_eq F counts hparam] at hdoit
    obtain ⟨input', hterminate, hanswer⟩ := Option.map_eq_some_iff.mp hdoit
    obtain ⟨-, hrest⟩ := Prod.mk.inj hanswer
    obtain ⟨-, rfl⟩ := Prod.mk.inj hrest
    exact ⟨input', hterminate, hecho⟩
  · obtain ⟨contentLength, hparam, hfits⟩ := h
    obtain ⟨input', hterminate, hecho⟩ := (w.input.terminate_iff F request.body _).mpr hfits
    let answer := w.answer counts request (toInt (strtol contentLength)) input'
    refine ⟨contentLength, answer.1, answer.2.1, answer.2.2, hparam, ?_, hecho⟩
    rw [w.doit_eq F counts hparam, hterminate]
    rfl

/-- A body of the length that was announced fits only if that is 1024. -/
theorem fits_announced_iff (input : Input) (body : Bytes) (hlength : body.length < 2147483648) :
    input.Fits body body.length ↔ body.length = maxline ∧ 0 ∉ body.take 1023 := by
  have hint : toInt body.length = body.length :=
    Int.bmod_eq_of_le_mul_two (by omega) (by omega)
  have hmin : (min (body.length : Int) 1023).toNat = min body.length 1023 := by omega
  have hecho : (body.take (min body.length 1023)).length = min body.length 1023 := by
    rw [List.length_take]
    omega
  have hcut : body.take (min body.length 1023) = body.take 1023 := by
    by_cases hshort : body.length ≤ 1023
    · rw [Nat.min_eq_left hshort, List.take_of_length_le (Nat.le_refl _), List.take_of_length_le hshort]
    · rw [Nat.min_eq_right (by omega)]
  have hmaxline : (maxline : Int) = 1024 := rfl
  rw [Input.Fits, hint, hmin, hecho, hcut, hmaxline]
  refine ⟨fun h => ?_, fun h => ?_⟩
  · obtain ⟨hin, hzero, hend⟩ := h
    refine ⟨?_, hzero⟩
    show body.length = 1024
    omega
  · obtain ⟨hfull, hzero⟩ := h
    have hfull : body.length = 1024 := hfull
    exact ⟨by omega, hzero, Or.inl (by omega)⟩

/-- `FCGX_GetStr` as it is documented. -/
def Fcgx.documented : Fcgx := ⟨fun n body => body.take n, fun _ _ => rfl⟩

/-- The first thread, with a cleared buffer. -/
def Worker.cleared : Worker :=
  ⟨⟨0, by decide⟩, 1, ⟨List.replicate maxline 0, List.length_replicate⟩⟩

/-- `abc`, with its length. -/
def abc : FcgxRequest where
  getParam name := if name = "CONTENT_LENGTH" then some [51] else none
  body := [97, 98, 99]

/-- The last byte is cut off; without a length nothing is defined. -/
theorem abc_cut :
    (Worker.cleared.doit .documented [] abc).map (fun r => r.2.2.input) = some [97, 98] ∧
      abc.body.take (min (strtol [51]) 1023).toNat = [97, 98, 99] ∧
      (Worker.cleared.doit .documented [] { abc with getParam := fun _ => none }).isNone := by
  decide

end RubbishStore.Socket
