import Mathlib.Data.Finset.Card
import RubbishStore.Socket.Unp

/- The select loop of `selectserver.c`, `chatserver.c` and `httpserver.c`. The three
   `main`s differ only in what they do with a descriptor that is ready, `serve`
   here. A round asks `Select` for the ready descriptors, takes a new connection
   into the first free entry of `client`, and scans `client` up to `maxi` until as
   many descriptors as `Select` reported have been served.
   FD_SETSIZE is the length of `client`. A descriptor from FD_SETSIZE on would lie
   outside an `fd_set`; the sets here take it all the same. -/
namespace RubbishStore.Socket
open RubbishStore.Lib

/-- The variables of `main`. -/
structure Server where
  client : List Int
  maxi : Int
  maxfd : Int
  allset : Finset Fd
  rset : Finset Fd := ∅
  nready : Int := 0
  buf : Bytes
  sys : Sys

/-- What the process begins with: the descriptors it holds, one of which it listens
    on, and what is in `buf`. -/
structure Listening where
  fdSetsize : Nat
  opened : Finset Fd
  listenfd : Fd
  listenfd_nonneg : 0 ≤ listenfd
  listenfd_mem : listenfd ∈ opened
  buf : Bytes

/-- The three standard streams, and the next descriptor listens. -/
def Listening.usual : Listening where
  fdSetsize := 1024
  opened := {0, 1, 2, 3}
  listenfd := 3
  listenfd_nonneg := by decide
  listenfd_mem := by decide
  buf := List.replicate MAXLINE 0

namespace Server

def init (l : Listening) : Server :=
  let (allset, sys) := fdSet { opened := l.opened } l.listenfd ∅
  { client := List.replicate l.fdSetsize (-1)
    maxi := -1
    maxfd := l.listenfd
    allset := allset
    buf := l.buf
    sys := sys }

/-- new client connection -/
def newClient (K : Kernel) (s : Server) : Except Exit Server := do
  let (connfd, sys) ← accept K s.sys
  match s.client.findIdx? (· < 0) with
  | none => .error ⟨some "too many clients", sys⟩
  | some i =>
    let (allset, sys) := fdSet sys connfd s.allset
    .ok { s with
      client := s.client.set i connfd
      allset := allset
      maxfd := if connfd > s.maxfd then connfd else s.maxfd
      maxi := if i > s.maxi then i else s.maxi
      sys := sys }

/-- check all clients for data: the entries at the indices, until `nready` is used up -/
def scan (serve : Nat → Fd → Server → Except Exit Server) : List Nat → Server → Except Exit Server
  | [], s => .ok s
  | i :: is, s =>
    let sockfd := s.client.getD i (-1)
    if sockfd < 0 then scan serve is s
    else
      let (ready, sys) := fdIsset s.sys sockfd s.rset
      let s := { s with sys := sys }
      if ready then do
        let s ← serve i sockfd s
        let s := { s with nready := s.nready - 1 }
        if s.nready ≤ 0 then .ok s else scan serve is s
      else scan serve is s

/-- The indices up to `maxi`. -/
def indices (s : Server) : List Nat := List.range (s.maxi + 1).toNat

/-- One round of the loop. -/
def round (K : Kernel) (listenfd : Fd) (serve : Nat → Fd → Server → Except Exit Server)
    (s : Server) : Except Exit Server := do
  let (rset, sys) ← select K s.sys (s.maxfd + 1) s.allset
  let (ready, sys) := fdIsset sys listenfd rset
  let s := { s with rset := rset, nready := rset.card, sys := sys }
  if ready then do
    let s ← s.newClient K
    let s := { s with nready := s.nready - 1 }
    if s.nready ≤ 0 then .ok s else scan serve s.indices s
  else scan serve s.indices s

/-- connection closed by client -/
def hangUp (i : Nat) (sockfd : Fd) (s : Server) : Except Exit Server := do
  let sys ← close s.sys sockfd
  let (allset, sys) := fdClr sys sockfd s.allset
  .ok { s with client := s.client.set i (-1), allset := allset, sys := sys }

variable (K : Kernel)

/-- `selectserver.c` sends back what it has read. -/
def selectServe (i : Nat) (sockfd : Fd) (s : Server) : Except Exit Server := do
  let (bytes, sys) ← read K s.sys sockfd
  let s := { s with buf := overwrite s.buf bytes, sys := sys }
  if bytes = [] then hangUp i sockfd s
  else do
    let sys ← writen K s.sys sockfd bytes
    .ok { s with sys := sys }

/-- The clients at the indices other than `i`, one after the other. -/
def broadcast (i : Nat) (bytes : Bytes) (s : Server) : List Nat → Sys → Except Exit Sys
  | [], sys => .ok sys
  | j :: js, sys =>
    let sockfd := s.client.getD j (-1)
    if sockfd > 0 ∧ i ≠ j ∧ cstring s.buf ≠ [] then do
      let sys ← writen K sys sockfd bytes
      broadcast i bytes s js sys
    else broadcast i bytes s js sys

/-- `chatserver.c` sends what it has read to all clients but this one. What
    follows the `else` is done in either case. -/
def chatServe (i : Nat) (sockfd : Fd) (s : Server) : Except Exit Server := do
  let (bytes, sys) ← read K s.sys sockfd
  let s := { s with buf := overwrite s.buf bytes, sys := sys }
  let s ← (if bytes = [] then hangUp i sockfd s
    else do
      let sys ← broadcast K i bytes s s.indices s.sys
      .ok { s with sys := sys })
  let sys ← writen K s.sys stdoutFd bytes
  .ok { s with sys := sys }

/-- `"HTTP/1.1 404 Not Found\r\n\r\n"` -/
def response : Bytes := "HTTP/1.1 404 Not Found\r\n\r\n".toUTF8.toList

/-- What `http_parser_execute` is handed: `strlen(buf)` bytes of the buffer, unless
    there is no NUL in it. -/
def handed (buf : Bytes) : Option Bytes := if 0 ∈ buf then some (cstring buf) else none

/-- `httpserver.c` parses the buffer, answers and closes. Only the copy to standard
    output belongs to the `else`: the rest is done after a hang-up too. The line
    that it prints of what was parsed is left out. -/
def httpServe (i : Nat) (sockfd : Fd) (s : Server) : Except Exit Server := do
  let (bytes, sys) ← read K s.sys sockfd
  let s := { s with buf := overwrite s.buf bytes, sys := sys }
  let s ← (if bytes = [] then hangUp i sockfd s
    else do
      let sys ← writen K s.sys stdoutFd bytes
      .ok { s with sys := sys })
  let sys := s.sys.call (.parse (handed s.buf))
  let sys ← writen K sys sockfd response
  hangUp i sockfd { s with sys := sys }

variable (l : Listening)

def selectserver : Server → Except Exit Server := round K l.listenfd (selectServe K)

def chatserver : Server → Except Exit Server := round K l.listenfd (chatServe K)

def httpserver : Server → Except Exit Server := round K l.listenfd (httpServe K)

end Server

end RubbishStore.Socket
