import RubbishStore.Lib.PhpArray
import RubbishStore.Lib.Runs
import RubbishStore.Util.SolrQuery

/- `Util_Http_Curl`: an object that collects cookies, headers, request parameters and
   options in arrays, and a handle that keeps what `curl_setopt` has once set. A request
   puts the collected parts into the options, sets all options on the handle and sends
   what the handle has then. `parse_url`, `parse_str` and what `curl_setopt` takes are
   parameters; what the network answers, whether a file is writable and whether a handle
   can be made is given with each call. A setting that is refused ends the script
   (`new Exception($this->ch)` of a resource), any other exception leaves the object as
   it is then. -/
namespace RubbishStore.Util.Http
open RubbishStore.Lib

/-- The options the class names, and the others by number. -/
inductive Opt where
  | url | httpget | nobody | post | customrequest | postfields | httpheader | cookie | cookiefile | cookiejar
  | referer | useragent | connecttimeout | timeout | returntransfer | header | encoding | autoreferer
  | other (n : Nat)
  deriving DecidableEq, Repr

inductive Value where
  | null
  | bool (b : Bool)
  | int (i : Int)
  | text (s : Octets)
  | texts (ss : List Octets)
  deriving DecidableEq, Repr

/-- A request parameter; a number is the text it is sent as. -/
inductive Param where
  | null
  | text (s : Octets)
  | array (entries : List (Octets × Param))

/-- What `curl_setopt` has set on a handle since `curl_init`, in order. -/
abbrev Handle : Type := List (Opt × Value)

/-- What is set behind an option. -/
def Handle.value (h : Handle) (o : Opt) : Option Value := h.reverse.lookup o

/-- What `parse_url` finds. -/
structure ParsedUrl where
  scheme : Option Octets := none
  user : Option Octets := none
  pass : Option Octets := none
  host : Option Octets := none
  port : Option Octets := none
  path : Option Octets := none
  query : Option Octets := none
  fragment : Option Octets := none
  deriving DecidableEq, Repr

structure Php where
  /-- no part at all when it returns `false` -/
  parse_url : Octets → ParsedUrl
  parse_str : Octets → PhpArray Octets Param
  /-- `curl_setopt` returns `true`. -/
  accepts : Opt → Value → Bool

/-- An array, or one key with its value. -/
inductive Entry (κ α : Type) where
  | array (entries : PhpArray κ α)
  | one (key : κ) (value : α)

/-- The first argument of `addRequestParam` when the second one is `null`. -/
inductive Given where
  | none
  | query (s : Octets)
  | array (entries : PhpArray Octets Param)

structure Curl where
  /-- no handle behind a `reset()` that failed -/
  ch : Option Handle := some []
  cookieFile : Octets := []
  cookies : PhpArray Octets (Option Octets) := .empty
  headers : PhpArray Octets (Option Octets) := .empty
  options : PhpArray Opt Value := .empty
  requestParams : PhpArray Octets Param := .empty
  response : Value := .text []
  transferInfo : List (Octets × Value) := []

/-- How a call ends; behind a fatal error nothing runs. -/
inductive Ending where
  | returned
  | raised (message : Octets)
  | fatal
  deriving DecidableEq, Repr

/-- The object behind a call, and what `curl_exec` was called on. -/
structure Done where
  obj : Curl
  ending : Ending := .returned
  sent : Option Handle := none

/-- What `extension_loaded` and `curl_init` say. -/
structure Init where
  loaded : Bool
  created : Bool
  deriving DecidableEq, Repr

/-- What comes back: `curl_exec` and `curl_getinfo`. -/
structure Answer where
  response : Value
  info : List (Octets × Value)
  deriving DecidableEq, Repr

/-- PHP's `empty` of a string. -/
def isEmptyText (s : Octets) : Bool := s = [] ∨ s = octets "0"

def strtoupper (s : Octets) : Octets := s.map fun b => if 97 ≤ b ∧ b ≤ 122 then b - 32 else b

mutual
/-- The pairs of one parameter, under the encoded name. -/
def Param.parts (name : Octets) : Param → List Octets
  | .null => []
  | .text s => [name ++ octets "=" ++ Solr.urlencode s]
  | .array entries => Param.partsAll name entries

def Param.partsAll (name : Octets) : List (Octets × Param) → List Octets
  | [] => []
  | (key, param) :: entries =>
    Param.parts (name ++ octets "%5B" ++ Solr.urlencode key ++ octets "%5D") param ++ Param.partsAll name entries
end

def http_build_query (params : PhpArray Octets Param) : Octets :=
  (octets "&").intercalate (params.entries.flatMap fun (key, param) => param.parts (Solr.urlencode key))

/-- `curl_setopt_array`: it stops in front of a setting that is refused. -/
def curl_setopt_array (php : Php) (h : Handle) : List (Opt × Value) → Handle × Bool
  | [] => (h, true)
  | (o, v) :: options => if php.accepts o v then curl_setopt_array php (h ++ [(o, v)]) options else (h, false)

def addTo {κ α : Type} [DecidableEq κ] (m : PhpArray κ α) : Entry κ α → PhpArray κ α
  | .array entries => entries.union m
  | .one key value => m.set key value

/-- `if (isset($m[$key])) unset($m[$key]);` -/
def removeFrom {κ α : Type} [DecidableEq κ] (isNull : α → Bool) (m : PhpArray κ α) (key : κ) : PhpArray κ α :=
  if m.isset isNull key then m.unset key else m

def Value.isNull : Value → Bool
  | .null => true
  | _ => false

def Param.isNull : Param → Bool
  | .null => true
  | _ => false

namespace Curl

/-- `self::$predefinedUserAgents` -/
def predefinedUserAgents : List (Octets × Octets) :=
  [(octets "ie", octets "Mozilla/5.0 (compatible; MSIE 9.0; Windows NT 6.1; Trident/5.0)"),
    (octets "firefox", octets "Mozilla/5.0 (Windows NT 6.1; rv:6.0) Gecko/20110814 Firefox/6.0"),
    (octets "opera", octets "Opera/9.80 (Windows NT 6.1; U; en-US) Presto/2.9.181 Version/12.00"),
    (octets "chrome",
      octets "Mozilla/5.0 (Windows NT 5.1) AppleWebKit/535.2 (KHTML, like Gecko) Chrome/127.0.0.1 Safari/535.2"),
    (octets "bot", octets "Googlebot/2.1 (+http://www.google.com/bot.html)")]

/-- `__construct()` on an object without a handle -/
def construct (self : Curl) (init : Init) : Done :=
  if !init.loaded then { obj := self, ending := .raised (octets "cURL extension is not loaded.") }
  else if !init.created then { obj := self, ending := .raised (octets "Failed to init cURL handle.") }
  else { obj := { self with ch := some [] } }

/-- `__destruct()` -/
def destruct (self : Curl) : Curl := { self with ch := none }

def addCookie (self : Curl) (cookie : Entry Octets (Option Octets)) : Curl :=
  { self with cookies := addTo self.cookies cookie }

def addHeader (self : Curl) (header : Entry Octets (Option Octets)) : Curl :=
  { self with headers := addTo self.headers header }

def addOption (self : Curl) (option : Entry Opt Value) : Curl := { self with options := addTo self.options option }

/-- `addRequestParam($name)` -/
def addRequestParam (php : Php) (self : Curl) : Given → Curl
  | .none => self
  | .array params => { self with requestParams := params.union self.requestParams }
  | .query name =>
    let params := php.parse_str name
    if params.isEmpty then self else { self with requestParams := params.union self.requestParams }

/-- `addRequestParam($name, $value)` with a value, or with a name that is no string -/
def addRequestParamValue (self : Curl) (name : Octets) (value : Param) : Curl :=
  { self with requestParams := self.requestParams.set name value }

def noCookieFile (file : Octets) : Octets :=
  octets "Cookie file \"" ++ file ++ octets "\" is not writable or does'n exists!"

def clearCookieFile (self : Curl) (writable : Bool) : Done :=
  if writable then { obj := self } else { obj := self, ending := .raised (noCookieFile self.cookieFile) }

def clearCookies (self : Curl) : Curl := { self with cookies := .empty }
def clearHeaders (self : Curl) : Curl := { self with headers := .empty }
def clearOptions (self : Curl) : Curl := { self with options := .empty }
def clearRequestParams (self : Curl) : Curl := { self with requestParams := .empty }

def removeCookie (self : Curl) (name : Octets) : Curl :=
  { self with cookies := removeFrom Option.isNone self.cookies name }
def removeHeader (self : Curl) (header : Octets) : Curl :=
  { self with headers := removeFrom Option.isNone self.headers header }
def removeOption (self : Curl) (option : Opt) : Curl :=
  { self with options := removeFrom Value.isNull self.options option }
def removeRequestParam (self : Curl) (name : Octets) : Curl :=
  { self with requestParams := removeFrom Param.isNull self.requestParams name }

def setConnectTimeOut (self : Curl) (seconds : Int) : Curl := self.addOption (.one .connecttimeout (.int seconds))
def setTimeout (self : Curl) (seconds : Int) : Curl := self.addOption (.one .timeout (.int seconds))
def setReferer (self : Curl) (referer : Octets) : Curl := self.addOption (.one .referer (.text referer))
def setReturnTransfer (self : Curl) (trueFalse : Bool) : Curl :=
  self.addOption (.one .returntransfer (.bool trueFalse))

def setUserAgent (self : Curl) (userAgent : Octets) : Curl :=
  match predefinedUserAgents.lookup userAgent with
  | some agent => self.addOption (.one .useragent (.text agent))
  | none => self.addOption (.one .useragent (.text userAgent))

def setCookieFile (self : Curl) (filename : Octets) (writable : Bool) : Done :=
  if writable then { obj := { self with cookieFile := filename } }
  else { obj := self, ending := .raised (noCookieFile filename) }

def unsetCookieFile (self : Curl) : Curl := { self with cookieFile := [] }

def defaultHeaders : List (Octets × Octets) :=
  [(octets "Accept", octets "text/html,application/xhtml+xml,application/xml;q=0.9,*/*;q=0.8"),
    (octets "Accept-Charset", octets "windows-1251,utf-8;q=0.7,*;q=0.7"),
    (octets "Accept-Language", octets "en-us;q=0.7,en;q=0.3"),
    (octets "Accept-Encoding", octets "gzip,deflate"),
    (octets "Keep-Alive", octets "300"),
    (octets "Connection", octets "keep-alive"),
    (octets "Cache-Control", octets "max-age=0"),
    (octets "Pragma", [])]

def setDefaultHeaders (self : Curl) : Curl :=
  { self with headers := ⟨defaultHeaders.map fun (header, value) => (header, some value), by with_unfolding_all decide⟩ }

def setDefaultOptions (self : Curl) : Curl :=
  { self with
    options := ⟨[(.returntransfer, .bool true), (.header, .bool false), (.encoding, .text (octets "gzip,deflate")),
      (.autoreferer, .bool true), (.connecttimeout, .int 15), (.timeout, .int 30)], by decide⟩ }

def setDefaults (self : Curl) (userAgent : Octets) : Curl :=
  let self := self.setDefaultHeaders.setDefaultOptions
  if isEmptyText userAgent then self else self.setUserAgent userAgent

/-- `reset()` -/
def reset (self : Curl) (init : Init) : Done := { self.destruct with transferInfo := [] }.construct init

/-- `resetAll()`: without a cookie file that can be written it goes no further than the arrays. -/
def resetAll (self : Curl) (writable : Bool) (init : Init) : Done :=
  let self := self.clearHeaders.clearOptions.clearRequestParams.clearCookies
  let cleared := self.clearCookieFile writable
  match cleared.ending with
  | .returned => cleared.obj.reset init
  | _ => cleared

def buildUrl (parsedUrl : ParsedUrl) : Octets :=
  (match parsedUrl.scheme with | some scheme => scheme ++ octets "://" | none => []) ++
  (match parsedUrl.user with | some user => user ++ octets ":" | none => []) ++
  (match parsedUrl.pass with | some pass => pass ++ octets "@" | none => []) ++
  (match parsedUrl.host with | some host => host | none => []) ++
  (match parsedUrl.port with | some port => octets ":" ++ port | none => []) ++
  (match parsedUrl.path with | some path => path | none => []) ++
  (match parsedUrl.query with | some query => octets "?" ++ query | none => []) ++
  (match parsedUrl.fragment with | some fragment => octets "#" ++ fragment | none => [])

def prepareCookies (self : Curl) : Octets :=
  self.cookies.entries.foldl
    (fun cookiesString (cookie, value) => cookiesString ++ cookie ++ octets "=" ++ value.getD [] ++ octets "; ") []

def prepareHeaders (self : Curl) : List Octets :=
  self.headers.entries.map fun (header, value) => header ++ octets ": " ++ value.getD []

def setUrl (self : Curl) (url : Octets) : Curl := self.addOption (.one .url (.text url))

/-- The text of `$this->options[CURLOPT_URL]`. -/
def urlText (self : Curl) : Octets :=
  match self.options.get .url with
  | some (.text url) => url
  | _ => []

def prepareGetParams (php : Php) (self : Curl) : Curl :=
  let parsedUrl := php.parse_url self.urlText
  let query := http_build_query self.requestParams
  let query :=
    match parsedUrl.query with
    | some own => own ++ octets "&" ++ query
    | none => query
  self.setUrl (buildUrl { parsedUrl with query := some query })

def setRequestMethod (self : Curl) (method : Octets) : Curl :=
  let self := self.removeOption .nobody
  let self := self.removeOption .httpget
  let self := self.removeOption .post
  let self := self.removeOption .customrequest
  if strtoupper method = octets "HEAD" then self.addOption (.one .nobody (.bool true))
  else if strtoupper method = octets "GET" then self.addOption (.one .httpget (.bool true))
  else if strtoupper method = octets "POST" then self.addOption (.one .post (.bool true))
  else self.addOption (.one .customrequest (.text method))

/-- The options that `initOptions` collects. -/
def collectParams (php : Php) (self : Curl) : Curl :=
  if self.requestParams.isEmpty then self
  else if self.options.isset Value.isNull .httpget then self.prepareGetParams php
  else self.addOption (.one .postfields (.text (http_build_query self.requestParams)))

def collectHeaders (self : Curl) : Curl :=
  if self.headers.isEmpty then self else self.addOption (.one .httpheader (.texts self.prepareHeaders))

def collectCookieFile (self : Curl) : Curl :=
  if isEmptyText self.cookieFile then self
  else (self.addOption (.one .cookiefile (.text self.cookieFile))).addOption (.one .cookiejar (.text self.cookieFile))

def collectCookies (self : Curl) : Curl :=
  if self.cookies.isEmpty then self else self.addOption (.one .cookie (.text self.prepareCookies))

def collect (php : Php) (self : Curl) : Curl :=
  (self.collectParams php).collectHeaders.collectCookieFile.collectCookies

def initOptions (php : Php) (self : Curl) : Done :=
  let self := self.collect php
  match self.ch with
  | none => { obj := self, ending := .raised [] }
  | some h =>
    let (h, taken) := curl_setopt_array php h self.options.entries
    { obj := { self with ch := some h }, ending := if taken then .returned else .fatal }

/-- What `request` does in front of `initOptions`. -/
def prepare (php : Php) (self : Curl) (url method : Octets) (requestParams : Given) : Curl :=
  let self := (self.setUrl url).setRequestMethod method
  match requestParams with
  | .none => self
  | .query s => if isEmptyText s then self else self.addRequestParam php (.query s)
  | .array params => if params.isEmpty then self else self.addRequestParam php (.array params)

def request (php : Php) (self : Curl) (url method : Octets) (requestParams : Given) (answer : Answer) : Done :=
  let done := (self.prepare php url method requestParams).initOptions php
  match done.ending with
  | .returned =>
    { obj := { done.obj with response := answer.response, transferInfo := answer.info }, sent := done.obj.ch }
  | _ => done

def head (php : Php) (self : Curl) (url : Octets) (params : Given) (answer : Answer) : Done :=
  self.request php url (octets "HEAD") params answer
def delete (php : Php) (self : Curl) (url : Octets) (params : Given) (answer : Answer) : Done :=
  self.request php url (octets "DELETE") params answer
def get (php : Php) (self : Curl) (url : Octets) (params : Given) (answer : Answer) : Done :=
  self.request php url (octets "GET") params answer
def post (php : Php) (self : Curl) (url : Octets) (params : Given) (answer : Answer) : Done :=
  self.request php url (octets "POST") params answer
def put (php : Php) (self : Curl) (url : Octets) (params : Given) (answer : Answer) : Done :=
  self.request php url (octets "PUT") params answer

/-- `getTransferInfo()` and `getTransferInfo($key)`; what raises gives the message. -/
def getTransferInfo (self : Curl) : Except Octets (List (Octets × Value)) :=
  if self.transferInfo.isEmpty then .error (octets "There is no transfer info. Did you do the request?")
  else .ok self.transferInfo

def getTransferInfoOf (self : Curl) (key : Octets) : Except Octets Value := do
  let info ← self.getTransferInfo
  match info.lookup key with
  | some .null | none => .error (octets "There is no such key: " ++ key)
  | some value => .ok value

end Curl

end RubbishStore.Util.Http
