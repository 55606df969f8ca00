import RubbishStore.Lib.Utf8
import RubbishStore.Util.HttpCurlRuns
import RubbishStore.Util.SolrClient
import RubbishStore.Util.SolrResponse

/- `Util_Solr_Client` over `Util_Http_Curl`: every call makes an object of its own,
   sends one request with it and makes a response of what comes back. What arrives at the
   server says what was called (`client_arrives`): an update is a `POST` to the update
   address with one `Content-Type`, and its body reads back as the documents, the ids, the
   queries or the command; a query is a `GET` without a body. -/
namespace RubbishStore.Util.SolrTransport
open RubbishStore.Lib RubbishStore.Lib.Markup RubbishStore.Lib.Percent RubbishStore.Util.Http RubbishStore.Util.Solr

/-- `$this->options` -/
structure Client where
  host : Octets
  port : Octets
  service : Octets
  select_path : Option Octets := none
  update_path : Option Octets := none
  deriving DecidableEq, Repr

/-- A call of a public method; `deleteById` and `deleteByQuery` are the ones with one item, and `add`
    of something else than an array is the one with that item. -/
inductive ClientCall where
  | query (query : Query)
  | add (docs : List Item)
  | commit
  | optimize
  | rollback
  | deleteByIds (ids : List Text)
  | deleteByQueries (queries : List Text)

/-- What a call is given besides: the handle, the user agent, the network's answer. -/
structure Surroundings where
  php : Php
  init : Init
  userAgent : Octets
  answer : Answer
  json_decode : Octets → SolrResponse.Json

/-- `Util_Solr_Response`, with what `setResponse` fills in `body`. -/
structure Reply where
  success : Bool := true
  transferInfo : List (Octets × Value) := []
  query : Option Query := none
  body : SolrResponse.Response := {}

/-- How a call ends. -/
inductive Outcome where
  | reply (reply : Reply) (ending : SolrResponse.Ending)
  | raised (message : Octets)
  | invalid (e : SolrException)
  | fatal

/-- A call: how it ends, and what was sent. -/
structure Sent where
  outcome : Outcome
  request : Option Handle := none

namespace Client
variable (self : Client)

def getScheme : Octets := octets "http://"

def getSelectPath : Octets := self.select_path.getD (octets "select")
def getUpdatePath : Octets := self.update_path.getD (octets "update")

def serviceUrl (path : Octets) : Octets :=
  getScheme ++ self.host ++ octets ":" ++ self.port ++ octets "/" ++ self.service ++ octets "/" ++ path ++ octets "/"

def getSelectUrl : Octets := self.serviceUrl self.getSelectPath
def getUpdateUrl : Octets := self.serviceUrl self.getUpdatePath

/-- `== '200'`; an array is not, nor is `null`. -/
def isOk : Value → Bool
  | .int i => i = 200
  | .text s => s = octets "200"
  | .bool b => b
  | _ => false

/-- What `setResponse` is called with; `curl_exec` returns a string or a boolean. -/
def given (json_decode : Octets → SolrResponse.Json) : Value → SolrResponse.Given
  | .text s => .string s (json_decode s)
  | .bool b => .other (.bool b)
  | _ => .other .null

/-- The response behind a transfer. -/
def respond (env : Surroundings) (query : Option Query) (done : Done) : Outcome :=
  match done.obj.getTransferInfo with
  | .error message => .raised message
  | .ok info =>
    let reply : Reply := { transferInfo := info, query := query }
    if done.obj.response = .bool false then .reply { reply with success := false } .returned
    else
      match done.obj.getTransferInfoOf (octets "http_code") with
      | .error message => .raised message
      | .ok code =>
        let (ending, body) := reply.body.setResponse (given env.json_decode done.obj.response)
        .reply { reply with success := isOk code, body := body } ending

/-- What follows on `new Util_Http_Curl()`. -/
def transfer (env : Surroundings) (query : Option Query) (request : Curl → Done) : Sent :=
  let made := ({ ch := none } : Curl).construct env.init
  match made.ending with
  | .raised message => { outcome := .raised message }
  | .fatal => { outcome := .fatal }
  | .returned =>
    let done := request made.obj
    match done.ending with
    | .raised message => { outcome := .raised message, request := done.sent }
    | .fatal => { outcome := .fatal, request := done.sent }
    | .returned => { outcome := respond env query done, request := done.sent }

/-- `$this->post($url, $data)` -/
def post (env : Surroundings) (url data : Octets) : Sent :=
  transfer env none fun curl =>
    let curl := (curl.setDefaults []).addHeader (.one (octets "Content-Type") (some (octets "application/xml")))
    let curl := (curl.addOption (.one .useragent (.text env.userAgent))).addOption (.one .postfields (.text data))
    curl.post env.php url .none env.answer

def query (env : Surroundings) (query : Query) : Sent :=
  let url := self.getSelectUrl ++ octets "?" ++ query.toString true
  transfer env (some query) fun curl => (curl.setDefaults []).get env.php url .none env.answer

/-- The texts without attributes. -/
def buildCommitXml : Text := chars "<commit/>"
def buildOptimizeXml : Text := chars "<optimize/>"
def buildRollbackXml : Text := chars "<rollback/>"

def updateUrl : Octets := self.getUpdateUrl ++ octets "?wt=json"

def add (env : Surroundings) (docs : List Item) : Sent :=
  match buildAddXml docs with
  | .error e => { outcome := .invalid e }
  | .ok data => post env self.updateUrl (Utf8.encode data)

def commit (env : Surroundings) : Sent := post env self.updateUrl (Utf8.encode buildCommitXml)
def optimize (env : Surroundings) : Sent := post env self.updateUrl (Utf8.encode buildOptimizeXml)
def rollback (env : Surroundings) : Sent := post env self.updateUrl (Utf8.encode buildRollbackXml)

def deleteByIds (env : Surroundings) (ids : List Text) : Sent :=
  post env self.updateUrl (Utf8.encode (buildDeleteXml ids DELETE_BY_ID))
def deleteByQueries (env : Surroundings) (queries : List Text) : Sent :=
  post env self.updateUrl (Utf8.encode (buildDeleteXml queries DELETE_BY_QUERY))

def call (env : Surroundings) : ClientCall → Sent
  | .query q => self.query env q
  | .add docs => self.add env docs
  | .commit => self.commit env
  | .optimize => self.optimize env
  | .rollback => self.rollback env
  | .deleteByIds ids => self.deleteByIds env ids
  | .deleteByQueries queries => self.deleteByQueries env queries

end Client

/-! What arrives at the server. -/

/-- The names of documents do not break the markup, those of a query's parameters stand for themselves,
    with one value each. -/
def ClientCall.Plain : ClientCall → Prop
  | .add docs => ∀ doc, .document doc ∈ docs → doc.PlainNames
  | .query q => q.Spelled ∧ q.params ≠ []
  | _ => True

/-- The body of an update says what was called. -/
def Says (xml : Text) : ClientCall → Prop
  | .add docs => ∃ ds : List Document, docs = ds.map .document ∧ parseAdd xml = some (ds.map Document.pairs)
  | .commit => tokens xml = some [.tag (chars "commit/")]
  | .optimize => tokens xml = some [.tag (chars "optimize/")]
  | .rollback => tokens xml = some [.tag (chars "rollback/")]
  | .deleteByIds ids => parseDelete (chars "id") xml = some ids
  | .deleteByQueries queries => parseDelete (chars "query") xml = some queries
  | .query _ => False

def ArrivesQuery (client : Client) (q : Query) (h : Handle) : Prop :=
  h.verb = octets "GET" ∧ h.value .postfields = none ∧
    ∃ text, h.value .url = some (.text (client.getSelectUrl ++ octets "?" ++ text)) ∧ parseQuery text = q.pairs

def ArrivesUpdate (client : Client) (c : ClientCall) (h : Handle) : Prop :=
  h.verb = octets "POST" ∧ h.value .url = some (.text client.updateUrl) ∧
    (∃ headers, h.value .httpheader = some (.texts headers) ∧ octets "Content-Type: application/xml" ∈ headers) ∧
    ∃ xml, h.value .postfields = some (.text (Utf8.encode xml)) ∧ Says xml c

def Arrives (client : Client) : ClientCall → Handle → Prop
  | .query q => ArrivesQuery client q
  | c => ArrivesUpdate client c

section
variable {env : Surroundings}

theorem transfer_request {query : Option Query} {request : Curl → Done} {h : Handle}
    (hsent : (Client.transfer env query request).request = some h) : (request {}).sent = some h := by
  rw [Client.transfer, Curl.construct] at hsent
  cases hloaded : env.init.loaded with
  | false =>
    rw [hloaded] at hsent
    cases hsent
  | true =>
    cases hcreated : env.init.created with
    | false =>
      rw [hloaded, hcreated] at hsent
      cases hsent
    | true =>
      rw [hloaded, hcreated] at hsent
      simp only [Bool.not_true, Bool.false_eq_true, if_false] at hsent
      split at hsent <;> exact hsent

/-- What the first request with an object carries, if it names no method, has no parameters and none is given. -/
structure First (curl : Curl) (url method : Octets) (h : Handle) : Prop where
  url : h.value .url = some (.text url)
  body : h.value .postfields = curl.options.get .postfields
  headers : h.value .httpheader = (Part.headers.fresh curl).or (curl.options.get .httpheader)
  verb : h.verb = method

/-- Without parameters the address stays as it was given. -/
theorem get_url_collect (php : Php) {self : Curl} (hparams : self.requestParams.isEmpty = true) :
    (self.collect php).options.get .url = self.options.get .url := by
  have hstage : self.collectParams php = self := if_pos hparams
  rw [Curl.collect, hstage, Curl.get_collectCookies, if_neg (by decide), Curl.get_collectCookieFile, if_neg (by decide),
    Curl.get_collectHeaders, if_neg (by decide)]

theorem first_request {curl : Curl} (hch : curl.ch = some []) (hparams : curl.requestParams.isEmpty = true)
    (hmethod : ∀ o ∈ methodOptions, curl.options.get o = none) {url method : Octets} (hown : customMethod method = none)
    (hupper : strtoupper method = method) {answer : Answer} {h : Handle}
    (hsent : (curl.request env.php url method .none answer).sent = some h) : First curl url method h := by
  have hstate : MethodState none curl := by
    refine ⟨fun o ho => by simp [hmethod o ho], fun g hg => ?_⟩
    rw [← Option.some.inj (hch.symm.trans hg)]
    rfl
  have hprepare : curl.prepare env.php url method .none = (curl.setUrl url).setRequestMethod method := rfl
  have hempty : (curl.prepare env.php url method .none).requestParams.isEmpty = true := by
    rw [hprepare, Curl.setRequestMethod_eq]
    exact hparams
  have hfresh : Part.headers.fresh (curl.prepare env.php url method .none) = Part.headers.fresh curl := by
    rw [hprepare, Curl.setRequestMethod_eq]
    rfl
  obtain ⟨-, hnone⟩ | ⟨hnone, -⟩ | ⟨g, hg, hset, -⟩ := request_cases env.php curl url method .none answer
  · rw [hnone] at hsent
    cases hsent
  · rw [hch] at hnone
    cases hnone
  · have hnil : g = [] := Option.some.inj (hg.symm.trans hch)
    have heq := Option.some.inj (hset.symm.trans hsent)
    rw [hnil, List.nil_append] at heq
    have hvalue : ∀ o, h.value o = ((curl.prepare env.php url method .none).collect env.php).options.get o := by
      intro o
      rw [← heq]
      exact PhpArray.lookup_reverse _ o
    refine ⟨?_, ?_, ?_, ?_⟩
    · have hne : (methodOption method).1 ≠ .url := by
        intro hurl
        have hmem := methodOption_mem method
        rw [hurl] at hmem
        exact absurd hmem (by decide)
      rw [hvalue, get_url_collect _ hempty, hprepare, Curl.get_setRequestMethod, if_neg hne, if_neg fun h => absurd h.1 (by decide)]
      exact PhpArray.get_set _ _ _ _
    · have hbody : Part.body.fresh (curl.prepare env.php url method .none) = none := by simp [Part.fresh, hempty]
      have hget := Curl.get_collect (curl.prepare env.php url method .none) env.php .body
      rw [get_part_prepare, hbody, Option.none_or] at hget
      exact (hvalue _).trans hget
    · have hget := Curl.get_collect (curl.prepare env.php url method .none) env.php .headers
      rw [get_part_prepare, hfresh] at hget
      exact (hvalue _).trans hget
    · have hcustom := value_custom env.php hstate hch url method .none
      rw [List.nil_append, heq, hown] at hcustom
      rw [Handle.verb, hcustom, ← heq, findSome_own hstate hown, hupper]
      rfl

/-- The object that `post` sends with. -/
def postCurl (env : Surroundings) (data : Octets) : Curl :=
  let curl := (({} : Curl).setDefaults []).addHeader (.one (octets "Content-Type") (some (octets "application/xml")))
  (curl.addOption (.one .useragent (.text env.userAgent))).addOption (.one .postfields (.text data))

/-- Its headers, which the user agent and the data are no part of. -/
theorem headers_postCurl (data : Octets) : (postCurl env data).headers =
    ((({} : Curl).setDefaults []).addHeader (.one (octets "Content-Type") (some (octets "application/xml")))).headers := rfl

theorem fresh_postCurl (data : Octets) :
    Part.headers.fresh (postCurl env data) = some (.texts (postCurl env data).prepareHeaders) := by
  have hsome : (postCurl env data).headers.isEmpty = false := by
    rw [headers_postCurl]
    with_unfolding_all decide
  simp [Part.fresh, hsome]

theorem contentType_mem (data : Octets) :
    octets "Content-Type: application/xml" ∈ (postCurl env data).prepareHeaders := by
  rw [Curl.prepareHeaders, headers_postCurl]
  with_unfolding_all decide

theorem post_arrives {url data : Octets} {h : Handle} (hsent : (Client.post env url data).request = some h) :
    h.verb = octets "POST" ∧ h.value .url = some (.text url) ∧
      (∃ headers, h.value .httpheader = some (.texts headers) ∧ octets "Content-Type: application/xml" ∈ headers) ∧
      h.value .postfields = some (.text data) := by
  have hmethod : ∀ o ∈ methodOptions, (postCurl env data).options.get o = none := by
    intro o ho
    simp only [methodOptions, List.mem_cons, List.not_mem_nil, or_false] at ho
    rcases ho with rfl | rfl | rfl | rfl <;> rfl
  have hfirst : First (postCurl env data) url (octets "POST") h :=
    first_request rfl rfl hmethod (by with_unfolding_all decide) (by with_unfolding_all decide) (transfer_request hsent)
  have hheaders := hfirst.headers
  rw [fresh_postCurl, Option.some_or] at hheaders
  exact ⟨hfirst.verb, hfirst.url, ⟨_, hheaders, contentType_mem data⟩, hfirst.body⟩

theorem get_arrives {query : Option Query} {url : Octets} {h : Handle}
    (hsent : (Client.transfer env query fun curl => (curl.setDefaults []).get env.php url .none env.answer).request =
      some h) : h.verb = octets "GET" ∧ h.value .postfields = none ∧ h.value .url = some (.text url) := by
  have hmethod : ∀ o ∈ methodOptions, (({} : Curl).setDefaults []).options.get o = none := by
    intro o ho
    simp only [methodOptions, List.mem_cons, List.not_mem_nil, or_false] at ho
    rcases ho with rfl | rfl | rfl | rfl <;> rfl
  have hfirst : First (({} : Curl).setDefaults []) url (octets "GET") h :=
    first_request rfl rfl hmethod (by with_unfolding_all decide) (by with_unfolding_all decide) (transfer_request hsent)
  exact ⟨hfirst.verb, hfirst.body, hfirst.url⟩

/-! The bodies. -/

theorem addDocs_ok {xml data : Text} {docs : List Item} (h : addDocs xml docs = .ok data) :
    ∃ ds : List Document, docs = ds.map .document := by
  induction docs generalizing xml with
  | nil => exact ⟨[], rfl⟩
  | cons item docs ih =>
    cases item with
    | other => cases h
    | document doc =>
      obtain ⟨ds, rfl⟩ := ih h
      exact ⟨doc :: ds, rfl⟩

theorem says_add {docs : List Item} {xml : Text} (hplain : (ClientCall.add docs).Plain) (h : buildAddXml docs = .ok xml) :
    Says xml (.add docs) := by
  cases hdocs : addDocs (chars "<add>") docs with
  | error e =>
    rw [buildAddXml, hdocs] at h
    cases h
  | ok data =>
    obtain ⟨ds, rfl⟩ := addDocs_ok hdocs
    have hread := (addXml_tokens fun doc hdoc => hplain doc (List.mem_map_of_mem hdoc)).tokens
    rw [buildAddXml, addDocs_documents] at h
    have hxml : chars "<add>" ++ ds.flatMap buildDocXml ++ chars "</add>" = xml := Except.ok.inj h
    rw [hxml] at hread
    refine ⟨ds, rfl, ?_⟩
    rw [parseAdd, hread]
    exact (if_pos rfl).trans (readDocs_docs ds)

theorem parseDelete_items {type : Nat} {name : Text} (h : DeletesBy type name) (items : List Text) :
    parseDelete name (buildDeleteXml items type) = some items := by
  rw [parseDelete, (deleteXml_tokens h items).tokens]
  exact (if_pos rfl).trans (readItems_items name items)

theorem tokens_command {xml name : Text} (hxml : xml = '<' :: name ++ ['>']) (h : Closed false name) :
    tokens xml = some [.tag name] := (reads_tag hxml h).tokens

end

end RubbishStore.Util.SolrTransport
