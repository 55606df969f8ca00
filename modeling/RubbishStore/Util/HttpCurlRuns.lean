import RubbishStore.Lib.Carried
import RubbishStore.Util.HttpCurl

/- One `Util_Http_Curl` object, call after call. The options and the handle outlive what
   was collected for a request. A part (the cookies, the headers, the cookie file, the
   body) that a request has carried goes out with later requests as well when nothing is
   left of it, until the options are cleared and the handle is made anew
   (`part_stays`). `HEAD`, `GET` and `POST` do not get into each other's way, but behind a
   request with another method they go out with that one's (`verb_sent`). -/
namespace RubbishStore.Util.Http
open RubbishStore.Lib

/-- A call of a public method. `head`, `delete`, `get`, `post` and `put` are `request` with
    their method; what a file, the extension or the network says comes with the call. -/
inductive Call where
  | addCookie (cookie : Entry Octets (Option Octets))
  | addHeader (header : Entry Octets (Option Octets))
  | addOption (option : Entry Opt Value)
  | addRequestParam (name : Given)
  | addRequestParamValue (name : Octets) (value : Param)
  | clearCookieFile (writable : Bool)
  | clearCookies
  | clearHeaders
  | clearOptions
  | clearRequestParams
  | removeCookie (name : Octets)
  | removeHeader (header : Octets)
  | removeOption (option : Opt)
  | removeRequestParam (name : Octets)
  | request (url method : Octets) (params : Given) (answer : Answer)
  | reset (init : Init)
  | resetAll (writable : Bool) (init : Init)
  | setConnectTimeOut (seconds : Int)
  | setCookieFile (filename : Octets) (writable : Bool)
  | setDefaultHeaders
  | setDefaultOptions
  | setDefaults (userAgent : Octets)
  | setReferer (referer : Octets)
  | setReturnTransfer (trueFalse : Bool)
  | setTimeout (seconds : Int)
  | setUserAgent (userAgent : Octets)
  | unsetCookieFile

def call (php : Php) (self : Curl) : Call → Done
  | .addCookie cookie => { obj := self.addCookie cookie }
  | .addHeader header => { obj := self.addHeader header }
  | .addOption option => { obj := self.addOption option }
  | .addRequestParam name => { obj := self.addRequestParam php name }
  | .addRequestParamValue name value => { obj := self.addRequestParamValue name value }
  | .clearCookieFile writable => self.clearCookieFile writable
  | .clearCookies => { obj := self.clearCookies }
  | .clearHeaders => { obj := self.clearHeaders }
  | .clearOptions => { obj := self.clearOptions }
  | .clearRequestParams => { obj := self.clearRequestParams }
  | .removeCookie name => { obj := self.removeCookie name }
  | .removeHeader header => { obj := self.removeHeader header }
  | .removeOption option => { obj := self.removeOption option }
  | .removeRequestParam name => { obj := self.removeRequestParam name }
  | .request url method params answer => self.request php url method params answer
  | .reset init => self.reset init
  | .resetAll writable init => self.resetAll writable init
  | .setConnectTimeOut seconds => { obj := self.setConnectTimeOut seconds }
  | .setCookieFile filename writable => self.setCookieFile filename writable
  | .setDefaultHeaders => { obj := self.setDefaultHeaders }
  | .setDefaultOptions => { obj := self.setDefaultOptions }
  | .setDefaults userAgent => { obj := self.setDefaults userAgent }
  | .setReferer referer => { obj := self.setReferer referer }
  | .setReturnTransfer trueFalse => { obj := self.setReturnTransfer trueFalse }
  | .setTimeout seconds => { obj := self.setTimeout seconds }
  | .setUserAgent userAgent => { obj := self.setUserAgent userAgent }
  | .unsetCookieFile => { obj := self.unsetCookieFile }

/-- The object, whether the script has ended, and what the last call has sent. -/
structure Session where
  obj : Curl := {}
  ended : Bool := false
  sent : Option Handle := none

def step (php : Php) (s : Session) (c : Call) : Session :=
  if s.ended then { s with sent := none }
  else
    let done := call php s.obj c
    { obj := done.obj, ended := done.ending = .fatal, sent := done.sent }

/-- The options that a call adds or removes in its caller's words. -/
def Call.names : Call → Opt → Prop
  | .addOption (.array options), o => o ∈ assocKeys options.entries
  | .addOption (.one option _), o => o = option
  | .removeOption option, o => o = option
  | .setConnectTimeOut _, o => o = .connecttimeout
  | .setTimeout _, o => o = .timeout
  | .setReferer _, o => o = .referer
  | .setReturnTransfer _, o => o = .returntransfer
  | .setUserAgent _, o => o = .useragent
  | .setDefaultOptions, o => o ∈ [.returntransfer, .header, .encoding, .autoreferer, .connecttimeout, .timeout]
  | .setDefaults _, o =>
    o ∈ [.returntransfer, .header, .encoding, .autoreferer, .connecttimeout, .timeout, .useragent]
  | _, _ => False

/-- What a request puts into the options by itself. -/
inductive Part where
  | cookies
  | headers
  | cookieFile
  | cookieJar
  | body
  deriving DecidableEq, Repr

def Part.opt : Part → Opt
  | .cookies => .cookie
  | .headers => .httpheader
  | .cookieFile => .cookiefile
  | .cookieJar => .cookiejar
  | .body => .postfields

/-- What there is of a part when the options are collected. -/
def Part.fresh (self : Curl) : Part → Option Value
  | .cookies => if self.cookies.isEmpty then none else some (.text self.prepareCookies)
  | .headers => if self.headers.isEmpty then none else some (.texts self.prepareHeaders)
  | .cookieFile | .cookieJar => if isEmptyText self.cookieFile then none else some (.text self.cookieFile)
  | .body =>
    if self.requestParams.isEmpty || self.options.isset Value.isNull .httpget then none
    else some (.text (http_build_query self.requestParams))

/-- What a call does to a part that it has nothing new for. -/
def Call.events : Call → List (Carried.Event Value)
  | .request _ _ _ _ => [.copy]
  | .clearOptions | .setDefaultOptions | .setDefaults _ => [.drop]
  | .reset _ => [.renew]
  | .resetAll writable _ => if writable then [.drop, .renew] else [.drop]
  | _ => []

/-! Handles. -/

section
variable (h : Handle) (o : Opt)

theorem value_append (options : PhpArray Opt Value) :
    Handle.value (h ++ options.entries) o = (options.get o).or (h.value o) := by
  rw [Handle.value, List.reverse_append, List.lookup_append, options.lookup_reverse]
  rfl

variable {php : Php}

theorem curl_setopt_array_taken {options : List (Opt × Value)} {h h' : Handle}
    (hset : curl_setopt_array php h options = (h', true)) : h' = h ++ options := by
  induction options generalizing h with
  | nil =>
    rw [List.append_nil]
    exact (Prod.mk.inj hset).1.symm
  | cons p options ih =>
    rw [curl_setopt_array] at hset
    split at hset
    · rw [ih hset, List.append_assoc]
      rfl
    · cases (Prod.mk.inj hset).2

end

/-! What the steps of a request do to the options. -/

/-- The options that `setRequestMethod` removes. -/
def methodOptions : List Opt := [.nobody, .httpget, .post, .customrequest]

/-- The option that it adds. -/
def methodOption (method : Octets) : Opt × Value :=
  if strtoupper method = octets "HEAD" then (.nobody, .bool true)
  else if strtoupper method = octets "GET" then (.httpget, .bool true)
  else if strtoupper method = octets "POST" then (.post, .bool true)
  else (.customrequest, .text method)

namespace Curl
variable (self : Curl) (php : Php) (o : Opt)

theorem get_addOption (k : Opt) (v : Value) :
    (self.addOption (.one k v)).options.get o = if k = o then some v else self.options.get o :=
  PhpArray.get_set self.options k o v

theorem get_removeOption (k : Opt) :
    (self.removeOption k).options.get o =
      if k = o ∧ self.options.isset Value.isNull k then none else self.options.get o := by
  rw [removeOption, removeFrom]
  by_cases hset : self.options.isset Value.isNull k
  · rw [if_pos hset, PhpArray.get_unset]
    simp [hset]
  · rw [if_neg hset, if_neg fun h => hset h.2]

theorem get_removeOptions (ks : List Opt) :
    (ks.foldl removeOption self).options.get o =
      if o ∈ ks ∧ self.options.isset Value.isNull o then none else self.options.get o := by
  induction ks generalizing self with
  | nil => simp
  | cons k ks ih =>
    have hset : (self.removeOption k).options.isset Value.isNull o =
        if k = o ∧ self.options.isset Value.isNull k then false else self.options.isset Value.isNull o := by
      have hget := get_removeOption self o k
      by_cases hc : k = o ∧ self.options.isset Value.isNull k
      · rw [if_pos hc] at hget ⊢
        rw [PhpArray.isset, hget]
      · rw [if_neg hc] at hget ⊢
        rw [PhpArray.isset, hget, PhpArray.isset]
    rw [List.foldl_cons, ih, hset, get_removeOption]
    by_cases hk : k = o
    · subst hk
      by_cases hs : self.options.isset Value.isNull k <;> simp [hs]
    · simp [hk, Ne.symm hk]

theorem setRequestMethod_eq (method : Octets) : self.setRequestMethod method =
    (methodOptions.foldl removeOption self).addOption (.one (methodOption method).1 (methodOption method).2) := by
  rw [setRequestMethod, methodOption]
  split
  · rfl
  · split
    · rfl
    · split <;> rfl

theorem get_setRequestMethod (method : Octets) :
    (self.setRequestMethod method).options.get o =
      if (methodOption method).1 = o then some (methodOption method).2
      else if o ∈ methodOptions ∧ self.options.isset Value.isNull o then none else self.options.get o := by
  rw [setRequestMethod_eq, get_addOption, get_removeOptions]

theorem options_addRequestParam (name : Given) : (self.addRequestParam php name).options = self.options := by
  cases name with
  | none | array _ => rfl
  | query s =>
    rw [addRequestParam]
    split <;> rfl

theorem options_prepare (url method : Octets) (params : Given) :
    (self.prepare php url method params).options = ((self.setUrl url).setRequestMethod method).options := by
  cases params with
  | none => rfl
  | query s =>
    rw [prepare]
    split
    · rfl
    · exact options_addRequestParam _ php (.query s)
  | array entries =>
    rw [prepare]
    split
    · rfl
    · rfl

/-- Apart from the address, a request's options are changed by its method only. -/
theorem get_prepare {url method : Octets} {params : Given} (ho : o ≠ .url) :
    (self.prepare php url method params).options.get o = (self.setRequestMethod method).options.get o := by
  have hurl : (self.setUrl url).options.get o = self.options.get o := by
    rw [setUrl, get_addOption, if_neg (Ne.symm ho)]
  rw [options_prepare, get_setRequestMethod, get_setRequestMethod, PhpArray.isset, PhpArray.isset, hurl]

/-! The stages of `collect` touch nothing but the options. -/

theorem collectParams_eq : ∃ m, self.collectParams php = { self with options := m } := by
  rw [collectParams]
  split
  · exact ⟨_, rfl⟩
  · split
    · exact ⟨_, rfl⟩
    · exact ⟨_, rfl⟩

theorem collectHeaders_eq : ∃ m, self.collectHeaders = { self with options := m } := by
  rw [collectHeaders]
  split <;> exact ⟨_, rfl⟩

theorem collectCookieFile_eq : ∃ m, self.collectCookieFile = { self with options := m } := by
  rw [collectCookieFile]
  split <;> exact ⟨_, rfl⟩

theorem collectCookies_eq : ∃ m, self.collectCookies = { self with options := m } := by
  rw [collectCookies]
  split <;> exact ⟨_, rfl⟩

/-- All parts but the body are collected from other arrays than the options. -/
theorem fresh_options (part : Part) (hpart : part ≠ .body) {other : Curl} {m : PhpArray Opt Value}
    (h : other = { self with options := m }) : part.fresh other = part.fresh self := by
  subst h
  cases part with
  | body => exact absurd rfl hpart
  | cookies | headers | cookieFile | cookieJar => rfl

variable {o} in
theorem get_collectParams (ho : o ≠ .url) : (self.collectParams php).options.get o =
    if o = .postfields then (Part.body.fresh self).or (self.options.get o) else self.options.get o := by
  rw [collectParams, Part.fresh]
  by_cases hempty : self.requestParams.isEmpty
  · simp [hempty]
  · rw [if_neg hempty]
    by_cases hget : self.options.isset Value.isNull .httpget
    · rw [if_pos hget, prepareGetParams, setUrl, get_addOption, if_neg (Ne.symm ho)]
      simp [hget]
    · rw [if_neg hget, get_addOption]
      by_cases hpost : o = .postfields
      · simp [hpost, hempty, hget]
      · simp [hpost, Ne.symm hpost]

theorem get_collectHeaders : self.collectHeaders.options.get o =
    if o = .httpheader then (Part.headers.fresh self).or (self.options.get o) else self.options.get o := by
  rw [collectHeaders, Part.fresh]
  by_cases hempty : self.headers.isEmpty
  · simp [hempty]
  · rw [if_neg hempty, get_addOption]
    by_cases ho : o = .httpheader
    · simp [ho, hempty]
    · simp [ho, Ne.symm ho]

theorem get_collectCookieFile : self.collectCookieFile.options.get o =
    if o = .cookiefile ∨ o = .cookiejar then (Part.cookieFile.fresh self).or (self.options.get o)
    else self.options.get o := by
  rw [collectCookieFile, Part.fresh]
  by_cases hempty : isEmptyText self.cookieFile
  · simp [hempty]
  · rw [if_neg hempty, get_addOption, get_addOption]
    by_cases hjar : o = .cookiejar
    · simp [hjar, hempty]
    · by_cases hfile : o = .cookiefile
      · simp [hfile, hempty]
      · simp [hfile, hjar, Ne.symm hfile, Ne.symm hjar]

theorem get_collectCookies : self.collectCookies.options.get o =
    if o = .cookie then (Part.cookies.fresh self).or (self.options.get o) else self.options.get o := by
  rw [collectCookies, Part.fresh]
  by_cases hempty : self.cookies.isEmpty
  · simp [hempty]
  · rw [if_neg hempty, get_addOption]
    by_cases ho : o = .cookie
    · simp [ho, hempty]
    · simp [ho, Ne.symm ho]

/-- What is collected of a part goes in front of what the options have of it. -/
theorem get_collect (part : Part) : (self.collect php).options.get part.opt =
    (part.fresh self).or (self.options.get part.opt) := by
  obtain ⟨m₁, h₁⟩ := collectParams_eq self php
  obtain ⟨m₂, h₂⟩ := collectHeaders_eq (self.collectParams php)
  obtain ⟨m₃, h₃⟩ := collectCookieFile_eq (self.collectParams php).collectHeaders
  have hurl : part.opt ≠ .url := by cases part <;> simp [Part.opt]
  have hheaders := fresh_options self .headers (by simp) h₁
  have hfile : Part.cookieFile.fresh (self.collectParams php).collectHeaders = Part.cookieFile.fresh self :=
    (fresh_options _ .cookieFile (by simp) h₂).trans (fresh_options self .cookieFile (by simp) h₁)
  have hcookies : Part.cookies.fresh (self.collectParams php).collectHeaders.collectCookieFile =
      Part.cookies.fresh self :=
    (fresh_options _ .cookies (by simp) h₃).trans
      ((fresh_options _ .cookies (by simp) h₂).trans (fresh_options self .cookies (by simp) h₁))
  rw [collect, get_collectCookies, get_collectCookieFile, get_collectHeaders, get_collectParams self php hurl,
    hheaders, hfile, hcookies]
  cases part <;> simp [Part.opt, Part.fresh]

/-- The options that no part goes into. -/
theorem get_collect_other (hurl : o ≠ .url) (ho : ∀ part : Part, o ≠ part.opt) :
    (self.collect php).options.get o = self.options.get o := by
  have hcookie : o ≠ .cookie := ho .cookies
  have hfile : ¬(o = .cookiefile ∨ o = .cookiejar) := not_or.mpr ⟨ho .cookieFile, ho .cookieJar⟩
  have hheader : o ≠ .httpheader := ho .headers
  have hbody : o ≠ .postfields := ho .body
  rw [collect, get_collectCookies, if_neg hcookie, get_collectCookieFile, if_neg hfile, get_collectHeaders, if_neg hheader,
    get_collectParams self php hurl, if_neg hbody]

theorem ch_collect : (self.collect php).ch = self.ch := by
  obtain ⟨m₁, h₁⟩ := collectParams_eq self php
  obtain ⟨m₂, h₂⟩ := collectHeaders_eq (self.collectParams php)
  obtain ⟨m₃, h₃⟩ := collectCookieFile_eq (self.collectParams php).collectHeaders
  obtain ⟨m₄, h₄⟩ := collectCookies_eq (self.collectParams php).collectHeaders.collectCookieFile
  rw [collect, h₄, h₃, h₂, h₁]

theorem ch_addRequestParam (name : Given) : (self.addRequestParam php name).ch = self.ch := by
  cases name with
  | none | array _ => rfl
  | query s =>
    rw [addRequestParam]
    split <;> rfl

theorem ch_prepare (url method : Octets) (params : Given) : (self.prepare php url method params).ch = self.ch := by
  have hmethod : ((self.setUrl url).setRequestMethod method).ch = self.ch := by
    rw [setRequestMethod_eq]
    rfl
  cases params with
  | none => exact hmethod
  | query s =>
    rw [prepare]
    split
    · exact hmethod
    · exact (ch_addRequestParam _ php (.query s)).trans hmethod
  | array entries =>
    rw [prepare]
    split <;> exact hmethod

end Curl

/-- What a request can do: it ends the script, it finds no handle, or it sets all its options on the
    handle and sends what is set there then. -/
theorem request_cases (php : Php) (self : Curl) (url method : Octets) (params : Given) (answer : Answer) :
    let p := (self.prepare php url method params).collect php
    let done := self.request php url method params answer
    (done.ending = .fatal ∧ done.sent = none) ∨
      (self.ch = none ∧ done.sent = none ∧ done.obj = p) ∨
      ∃ h, self.ch = some h ∧ done.sent = some (h ++ p.options.entries) ∧
        done.obj = { p with ch := some (h ++ p.options.entries), response := answer.response, transferInfo := answer.info } := by
  intro p done
  have hch : p.ch = self.ch := (Curl.ch_collect _ php).trans (Curl.ch_prepare self php url method params)
  cases h : p.ch with
  | none =>
    have hinit : (self.prepare php url method params).initOptions php = { obj := p, ending := .raised [] } := by
      rw [Curl.initOptions]
      simp only [p] at h
      rw [h]
    refine .inr (.inl ⟨hch ▸ h, ?_, ?_⟩)
    · simp only [done, Curl.request, hinit]
    · simp only [done, Curl.request, hinit]
  | some h₀ =>
    obtain ⟨⟨h₁, taken⟩, hset⟩ : ∃ r, curl_setopt_array php h₀ p.options.entries = r := ⟨_, rfl⟩
    have hinit : (self.prepare php url method params).initOptions php =
        { obj := { p with ch := some h₁ }, ending := if taken then .returned else .fatal } := by
      rw [Curl.initOptions]
      simp only [p] at h hset
      rw [h]
      simp only [hset]
      rfl
    cases taken with
    | false => exact .inl ⟨by simp [done, Curl.request, hinit], by simp [done, Curl.request, hinit]⟩
    | true =>
      have happend := curl_setopt_array_taken hset
      subst happend
      refine .inr (.inr ⟨h₀, hch ▸ h, ?_, ?_⟩)
      · simp [done, Curl.request, hinit]
      · simp [done, Curl.request, hinit]

/-! Calls, seen from one option. -/

/-- An option in the array and on the handle. -/
structure Mirrors (o : Opt) (cells : Carried.Cells Value) (obj : Curl) : Prop where
  kept : obj.options.get o = cells.kept
  live : ∀ h, obj.ch = some h → h.value o = cells.live

def Call.IsRequest : Call → Prop
  | .request _ _ _ _ => True
  | _ => False

section
variable {php : Php} {self : Curl} {cells : Carried.Cells Value} {o : Opt}

theorem Mirrors.congr {other : Curl} (hm : Mirrors o cells self) (hoptions : other.options.get o = self.options.get o)
    (hch : other.ch = self.ch) : Mirrors o cells other where
  kept := hoptions.trans hm.kept
  live h hh := hm.live h (hch ▸ hh)

theorem Mirrors.add {k : Opt} (hm : Mirrors o cells self) (hk : o ≠ k) (v : Value) :
    Mirrors o cells (self.addOption (.one k v)) :=
  hm.congr (by rw [Curl.get_addOption, if_neg (Ne.symm hk)]) rfl

theorem Mirrors.drop {other : Curl} (hm : Mirrors o cells self) (hoptions : other.options.get o = none)
    (hch : other.ch = self.ch) : Mirrors o (Carried.step cells .drop) other where
  kept := hoptions
  live h hh := hm.live h (hch ▸ hh)

theorem Mirrors.renew {other : Curl} (hm : Mirrors o cells self) (hoptions : other.options = self.options)
    (hch : other.ch = none ∨ other.ch = some []) : Mirrors o (Carried.step cells .renew) other where
  kept := by rw [hoptions]; exact hm.kept
  live h hh := by
    rcases hch with hch | hch <;> rw [hch] at hh <;> cases hh
    rfl

theorem Mirrors.setUserAgent (hm : Mirrors o cells self) (ho : o ≠ .useragent) (userAgent : Octets) :
    Mirrors o cells (self.setUserAgent userAgent) := by
  rw [Curl.setUserAgent]
  split <;> exact hm.add ho _

theorem reset_obj (self : Curl) (init : Init) :
    ((self.reset init).obj.ch = none ∨ (self.reset init).obj.ch = some []) ∧
      (self.reset init).obj.options = self.options := by
  rw [Curl.reset, Curl.construct]
  split
  · exact ⟨.inl rfl, rfl⟩
  · split
    · exact ⟨.inl rfl, rfl⟩
    · exact ⟨.inr rfl, rfl⟩

/-- What a call that is no request does to an option that it does not name. -/
theorem call_mirrors (php : Php) {c : Call} (hm : Mirrors o cells self) (hnames : ¬c.names o) (hc : ¬c.IsRequest) :
    Mirrors o (run Carried.step cells c.events) (call php self c).obj := by
  cases c with
  | addCookie _ | addHeader _ | addRequestParamValue _ _ | clearCookies | clearHeaders | clearRequestParams
  | removeCookie _ | removeHeader _ | removeRequestParam _ | setDefaultHeaders | unsetCookieFile =>
    exact hm.congr rfl rfl
  | addOption option =>
    cases option with
    | one k v => exact hm.add hnames v
    | array options =>
      have hget : options.get o = none := (PhpArray.get_eq_none_iff options o).mpr hnames
      exact hm.congr ((PhpArray.get_union options self.options o).trans (by rw [hget]; rfl)) rfl
  | addRequestParam name =>
    have hoptions := Curl.options_addRequestParam self php name
    exact hm.congr (congrArg (·.get o) hoptions) (Curl.ch_addRequestParam self php name)
  | clearCookieFile writable => cases writable <;> exact hm.congr rfl rfl
  | setCookieFile filename writable => cases writable <;> exact hm.congr rfl rfl
  | clearOptions => exact hm.drop rfl rfl
  | removeOption option =>
    have hne : ¬(option = o ∧ self.options.isset Value.isNull option = true) := fun h => hnames h.1.symm
    exact hm.congr ((Curl.get_removeOption self o option).trans (if_neg hne)) rfl
  | request url method params answer => exact absurd trivial hc
  | reset init => exact hm.renew (reset_obj self init).2 (reset_obj self init).1
  | resetAll writable init =>
    have hdrop : Mirrors o (Carried.step cells .drop)
        self.clearHeaders.clearOptions.clearRequestParams.clearCookies := hm.drop rfl rfl
    cases writable with
    | false => exact hdrop
    | true => exact hdrop.renew (reset_obj _ init).2 (reset_obj _ init).1
  | setConnectTimeOut seconds => exact hm.add hnames _
  | setTimeout seconds => exact hm.add hnames _
  | setReferer referer => exact hm.add hnames _
  | setReturnTransfer trueFalse => exact hm.add hnames _
  | setUserAgent userAgent => exact hm.setUserAgent hnames userAgent
  | setDefaultOptions =>
    have hget : self.setDefaultOptions.options.get o = none :=
      (PhpArray.get_eq_none_iff _ o).mpr hnames
    exact hm.drop hget rfl
  | setDefaults userAgent =>
    have hout : o ∉ assocKeys self.setDefaultOptions.options.entries ∧ o ≠ .useragent := by
      simpa [Call.names, assocKeys, Curl.setDefaultOptions, and_assoc] using hnames
    have hdrop : Mirrors o (Carried.step cells .drop) self.setDefaultHeaders.setDefaultOptions :=
      hm.drop ((PhpArray.get_eq_none_iff _ o).mpr hout.1) rfl
    show Mirrors o _ (self.setDefaults userAgent)
    rw [Curl.setDefaults]
    split
    · exact hdrop
    · exact hdrop.setUserAgent hout.2 userAgent

end

/-! A part behind the request that carries it. -/

/-- The call adds nothing to the part. -/
def AddsNothing (php : Php) (part : Part) (s : Session) (c : Call) : Prop :=
  ¬c.names part.opt ∧
    ∀ url method params answer, c = .request url method params answer →
      part.fresh (s.obj.prepare php url method params) = none

section
variable {php : Php} {part : Part} {self : Curl} {cells : Carried.Cells Value}

theorem not_mem_methodOptions (part : Part) : part.opt ∉ methodOptions := by cases part <;> decide

theorem methodOption_mem (method : Octets) : (methodOption method).1 ∈ methodOptions := by
  rw [methodOption]
  repeat' split
  all_goals simp [methodOptions]

/-- The method leaves the parts alone. -/
theorem get_part_prepare (url method : Octets) (params : Given) :
    (self.prepare php url method params).options.get part.opt = self.options.get part.opt := by
  have hurl : part.opt ≠ .url := by cases part <;> simp [Part.opt]
  have hne : (methodOption method).1 ≠ part.opt :=
    fun h => not_mem_methodOptions part (h ▸ methodOption_mem method)
  rw [Curl.get_prepare self php part.opt hurl, Curl.get_setRequestMethod, if_neg hne,
    if_neg fun h => not_mem_methodOptions part h.1]

/-- What a request carries of a part: what is new, or what the options have, or what the handle has. -/
theorem request_part (part : Part) {url method : Octets} {params : Given} {answer : Answer} {h' : Handle}
    (hsent : (self.request php url method params answer).sent = some h') :
    ∃ h, self.ch = some h ∧ (self.request php url method params answer).obj.ch = some h' ∧
      (self.request php url method params answer).obj.options.get part.opt =
        (part.fresh (self.prepare php url method params)).or (self.options.get part.opt) ∧
      h'.value part.opt =
        ((part.fresh (self.prepare php url method params)).or (self.options.get part.opt)).or (h.value part.opt) := by
  obtain ⟨-, hnone⟩ | ⟨-, hnone, -⟩ | ⟨h, hch, hset, hobj⟩ := request_cases php self url method params answer
  · rw [hnone] at hsent
    cases hsent
  · rw [hnone] at hsent
    cases hsent
  · have heq := Option.some.inj (hset.symm.trans hsent)
    have hget := Curl.get_collect (self.prepare php url method params) php part
    rw [get_part_prepare] at hget
    refine ⟨h, hch, ?_, ?_, ?_⟩
    · rw [hobj, ← heq]
    · rw [hobj]
      exact hget
    · rw [← heq, value_append, hget]

/-- What happens while the script goes on. -/
theorem step_goes {s : Session} {c : Call} (hend : (step php s c).ended = false) :
    (step php s c).obj = (call php s.obj c).obj ∧ (call php s.obj c).ending ≠ .fatal := by
  cases hlast : s.ended with
  | true =>
    rw [step, if_pos hlast] at hend
    exact absurd (hlast.symm.trans hend) (by decide)
  | false =>
    rw [step, hlast] at hend ⊢
    exact ⟨rfl, by simpa using hend⟩

theorem step_mirrors {s : Session} {c : Call} (hm : Mirrors part.opt cells s.obj) (hc : AddsNothing php part s c)
    (hend : (step php s c).ended = false) : Mirrors part.opt (run Carried.step cells c.events) (step php s c).obj := by
  obtain ⟨hobj, hfatal⟩ := step_goes hend
  rw [hobj]
  by_cases hrequest : c.IsRequest
  · cases c with
    | request url method params answer =>
      have hfresh := hc.2 url method params answer rfl
      have hget := Curl.get_collect (s.obj.prepare php url method params) php part
      rw [get_part_prepare, hfresh, Option.none_or, hm.kept] at hget
      obtain ⟨hend, -⟩ | ⟨hch, -, hobj⟩ | ⟨h, hch, -, hobj⟩ := request_cases php s.obj url method params answer
      · exact absurd hend hfatal
      · refine ⟨(congrArg (·.options.get part.opt) hobj).trans hget, fun h hh => ?_⟩
        have hnone : (s.obj.request php url method params answer).obj.ch = none := by
          rw [hobj, Curl.ch_collect, Curl.ch_prepare, hch]
        rw [call, hnone] at hh
        cases hh
      · refine ⟨(congrArg (·.options.get part.opt) hobj).trans hget, fun h' hh => ?_⟩
        have hset : some _ = some h' := (congrArg Curl.ch hobj).symm.trans hh
        rw [← Option.some.inj hset, value_append, hget, hm.live h hch]
        rfl
    | _ => exact hrequest.elim
  · exact call_mirrors php hm hc.1 hrequest

theorem ended_of_step {s : Session} {c : Call} (h : s.ended = true) : (step php s c).ended = true := by
  rw [step, if_pos h]
  exact h

theorem ended_first {s : Session} {c : Call} {calls : List Call} (hend : (run (step php) s (c :: calls)).ended = false) :
    (step php s c).ended = false := by
  by_contra h
  have hstays : (run (step php) (step php s c) calls).ended = true :=
    run_inv (I := fun s : Session => s.ended = true) (P := fun _ _ => True) (by simpa using h) atEach_true
      fun s c hs _ => ended_of_step hs
  rw [run_cons, hstays] at hend
  cases hend

theorem run_mirrors {s : Session} {calls : List Call} (hm : Mirrors part.opt cells s.obj)
    (hcalls : AtEach (step php) (AddsNothing php part) s calls) (hend : (run (step php) s calls).ended = false) :
    Mirrors part.opt (run Carried.step cells (calls.flatMap Call.events)) (run (step php) s calls).obj := by
  induction calls generalizing s cells with
  | nil => exact hm
  | cons c calls ih =>
    have hfirst := ended_first hend
    rw [List.flatMap_cons, run_append]
    exact ih (step_mirrors hm hcalls.1 hfirst) hcalls.2 hend

end

/-- What a request sends. -/
theorem step_sent {php : Php} {s : Session} {c : Call} {h : Handle} (hsent : (step php s c).sent = some h) :
    s.ended = false ∧ (step php s c).obj = (call php s.obj c).obj ∧ (call php s.obj c).sent = some h := by
  cases hend : s.ended with
  | true =>
    rw [step, if_pos hend] at hsent
    cases hsent
  | false =>
    rw [step, hend] at hsent ⊢
    exact ⟨rfl, rfl, hsent⟩

open Classical in
/-- A request carries what there is of a part. Emptying the part behind it does not take that back: later
    requests carry the same on, unless the options are cleared and the handle is made anew; made anew
    first, it must not be used before the options are cleared. -/
theorem part_stays (php : Php) (part : Part) {s : Session} {v : Value} {url url' method method' : Octets}
    {params params' : Given} {answer answer' : Answer} {h h' : Handle} {calls : List Call}
    (hsent : (step php s (.request url method params answer)).sent = some h)
    (hfresh : part.fresh (s.obj.prepare php url method params) = some v)
    (hcalls : AtEach (step php) (AddsNothing php part) (step php s (.request url method params answer)) calls)
    (hlast : AddsNothing php part (run (step php) (step php s (.request url method params answer)) calls)
      (.request url' method' params' answer'))
    (hsent' : (step php (run (step php) (step php s (.request url method params answer)) calls)
      (.request url' method' params' answer')).sent = some h') :
    h.value part.opt = some v ∧
      h'.value part.opt = if Carried.Forgets (calls.flatMap Call.events) then none else some v := by
  obtain ⟨-, hobj, hfirst⟩ := step_sent hsent
  obtain ⟨_, _, hch, hget, hvalue⟩ := request_part part hfirst
  rw [hfresh, Option.some_or] at hget hvalue
  have hstart : Mirrors part.opt ⟨some v, some v⟩ (step php s (.request url method params answer)).obj := by
    refine ⟨by rw [hobj]; exact hget, fun g hg => ?_⟩
    rw [hobj] at hg
    rw [← Option.some.inj (hch.symm.trans hg)]
    exact hvalue
  obtain ⟨hgoes, -, hsecond⟩ := step_sent hsent'
  have hend := run_mirrors hstart hcalls hgoes
  obtain ⟨g, hg, -, -, hvalue'⟩ := request_part part hsecond
  rw [hlast.2 url' method' params' answer' rfl, Option.none_or, hend.kept, hend.live g hg] at hvalue'
  have hquiet : Carried.Quiet (calls.flatMap Call.events) := by
    intro v hv
    obtain ⟨c, -, hc⟩ := List.mem_flatMap.mp hv
    cases c with
    | resetAll writable init => cases writable <;> simp [Call.events] at hc
    | _ => simp [Call.events] at hc
  exact ⟨hvalue, hvalue'.trans (Carried.carried_events hquiet v)⟩

/-- `curl_setopt` takes everything, and no address has a part. -/
def plainPhp : Php where
  parse_url _ := {}
  parse_str _ := .empty
  accepts _ _ := true

/-- A cookie that is cleared, on a handle that is made anew. -/
theorem part_stays_cookie :
    let s : Session := { obj := { cookies := .set .empty [97] (some [49]) } }
    let get := Call.request [120] (octets "GET") .none ⟨.bool true, []⟩
    ((step plainPhp (run (step plainPhp) (step plainPhp s get) [.clearCookies, .reset ⟨true, true⟩]) get).sent.bind
      fun h => h.value .cookie) = some (.text [97, 61, 49, 59, 32]) := by
  intro s get
  obtain ⟨h, hsent⟩ : ∃ h, (step plainPhp s get).sent = some h :=
    Option.isSome_iff_exists.mp (by with_unfolding_all decide)
  obtain ⟨h', hsent'⟩ : ∃ h', (step plainPhp (run (step plainPhp) (step plainPhp s get)
      [.clearCookies, .reset ⟨true, true⟩]) get).sent = some h' :=
    Option.isSome_iff_exists.mp (by with_unfolding_all decide)
  have hcalls : AtEach (step plainPhp) (AddsNothing plainPhp .cookies) (step plainPhp s get)
      [.clearCookies, .reset ⟨true, true⟩] :=
    ⟨⟨id, fun _ _ _ _ h => by cases h⟩, ⟨id, fun _ _ _ _ h => by cases h⟩, trivial⟩
  have hlast : AddsNothing plainPhp .cookies (run (step plainPhp) (step plainPhp s get)
      [.clearCookies, .reset ⟨true, true⟩]) get := by
    refine ⟨id, fun url method params answer h => ?_⟩
    injection h with hurl hmethod hparams
    subst hurl hmethod hparams
    with_unfolding_all decide
  have hstays := (part_stays plainPhp .cookies hsent (v := .text [97, 61, 49, 59, 32]) (by with_unfolding_all decide)
    hcalls hlast hsent').2
  rw [hsent']
  refine hstays.trans (if_neg ?_)
  simp [Call.events, Carried.forgets_cons]

/-! The method of a request. -/

/-- The method that an option switches to. -/
def switches : Opt × Value → Option Octets
  | (.nobody, .bool true) => some (octets "HEAD")
  | (.httpget, .bool true) => some (octets "GET")
  | (.post, .bool true) => some (octets "POST")
  | _ => none

/-- The method libcurl sends: `CURLOPT_CUSTOMREQUEST` if it is set, or the one of `CURLOPT_NOBODY`,
    `CURLOPT_HTTPGET` and `CURLOPT_POST` that was switched on last. -/
def Handle.verb (h : Handle) : Octets :=
  match h.value .customrequest with
  | some (.text method) => method
  | _ => (h.reverse.findSome? switches).getD (octets "GET")

/-- A method that has no option of its own. -/
def customMethod (method : Octets) : Option Octets :=
  if (methodOption method).1 = .customrequest then some method else none

/-- The last such method since the handle was made. -/
def Call.custom (last : Option Octets) : Call → Option Octets
  | .request _ method _ _ => (customMethod method).or last
  | .reset _ => none
  | .resetAll writable _ => if writable then none else last
  | _ => last

/-- The call names no option of the method. -/
def LeavesMethod (c : Call) : Prop := ∀ o ∈ methodOptions, ¬c.names o

/-- Behind some calls, with the last method of that kind. -/
structure MethodState (last : Option Octets) (obj : Curl) : Prop where
  notNull : ∀ o ∈ methodOptions, obj.options.get o ≠ some .null
  live : ∀ h, obj.ch = some h → h.value .customrequest = last.map .text

section
variable {php : Php} {self : Curl} {last : Option Octets}

theorem methodOption_notNull (method : Octets) : (methodOption method).2 ≠ .null := by
  rw [methodOption]
  repeat' split
  all_goals simp

theorem isset_of_get {o : Opt} {v : Value} (h : self.options.get o = some v) (hv : v ≠ .null) :
    self.options.isset Value.isNull o = true := by
  rw [PhpArray.isset, h]
  cases v with
  | null => exact absurd rfl hv
  | _ => rfl

/-- Of the method's options a request has exactly its own. -/
theorem get_method_collect (php : Php) {o : Opt} (hstate : MethodState last self) (ho : o ∈ methodOptions) (url method : Octets)
    (params : Given) : ((self.prepare php url method params).collect php).options.get o =
      if (methodOption method).1 = o then some (methodOption method).2 else none := by
  have hurl : o ≠ .url := by rintro rfl; simp [methodOptions] at ho
  have hpart : ∀ part : Part, o ≠ part.opt := fun part h => not_mem_methodOptions part (h ▸ ho)
  rw [Curl.get_collect_other _ php o hurl hpart, Curl.get_prepare self php o hurl, Curl.get_setRequestMethod]
  congr 1
  cases hget : self.options.get o with
  | none => simp
  | some v =>
    have hv : v ≠ .null := fun h => hstate.notNull o ho (h ▸ hget)
    rw [if_pos ⟨ho, isset_of_get hget hv⟩]

theorem methodOption_custom {method : Octets} (h : (methodOption method).1 = .customrequest) :
    (methodOption method).2 = .text method := by
  rw [methodOption] at h ⊢
  split at h
  · cases h
  · next h₁ =>
    split at h
    · cases h
    · next h₂ =>
      split at h
      · cases h
      · next h₃ => rw [if_neg h₁, if_neg h₂, if_neg h₃]

theorem events_kept {c : Call} (hc : ¬c.IsRequest) (cells : Carried.Cells Value) :
    (run Carried.step cells c.events).kept = cells.kept ∨ (run Carried.step cells c.events).kept = none := by
  cases c with
  | request url method params answer => exact absurd trivial hc
  | clearOptions | setDefaultOptions | setDefaults _ => exact .inr rfl
  | resetAll writable init => cases writable <;> exact .inr rfl
  | _ => exact .inl rfl

theorem events_live {c : Call} (hc : ¬c.IsRequest) {cells : Carried.Cells Value} (h : cells.live = last.map .text) :
    (run Carried.step cells c.events).live = (c.custom last).map .text := by
  cases c with
  | request url method params answer => exact absurd trivial hc
  | reset init => rfl
  | resetAll writable init =>
    cases writable with
    | false => exact h
    | true => rfl
  | _ => exact h

theorem value_custom (php : Php) {h : Handle} (hstate : MethodState last self) (hch : self.ch = some h) (url method : Octets)
    (params : Given) :
    Handle.value (h ++ ((self.prepare php url method params).collect php).options.entries) .customrequest =
      ((customMethod method).or last).map .text := by
  have hget := get_method_collect php hstate (o := .customrequest) (by simp [methodOptions]) url method params
  rw [value_append, hget, hstate.live h hch, customMethod]
  by_cases hown : (methodOption method).1 = .customrequest
  · rw [if_pos hown, if_pos hown, methodOption_custom hown]
    rfl
  · rw [if_neg hown, if_neg hown]
    rfl

/-- Where a handle is made anew, nothing is left of the methods before. -/
theorem call_methodState {c : Call} (hstate : MethodState last self) (hc : LeavesMethod c)
    (hend : (call php self c).ending ≠ .fatal) : MethodState (c.custom last) (call php self c).obj := by
  by_cases hrequest : c.IsRequest
  · cases c with
    | request url method params answer =>
      have hget : ∀ o ∈ methodOptions, ((self.prepare php url method params).collect php).options.get o ≠ some .null := by
        intro o ho
        rw [get_method_collect php hstate ho]
        split
        · exact fun h => methodOption_notNull method (Option.some.inj h)
        · simp
      obtain ⟨hfatal, -⟩ | ⟨hch, -, hobj⟩ | ⟨h, hch, -, hobj⟩ := request_cases php self url method params answer
      · exact absurd hfatal hend
      · have hnone : (self.request php url method params answer).obj.ch = none := by
          rw [hobj, Curl.ch_collect, Curl.ch_prepare, hch]
        refine ⟨fun o ho => ?_, fun h hh => ?_⟩
        · rw [call, hobj]
          exact hget o ho
        · rw [call, hnone] at hh
          cases hh
      · refine ⟨fun o ho => ?_, fun h' hh => ?_⟩
        · rw [call, hobj]
          exact hget o ho
        · have hset : some _ = some h' := (congrArg Curl.ch hobj).symm.trans hh
          rw [← Option.some.inj hset]
          exact value_custom php hstate hch url method params
    | _ => exact hrequest.elim
  · refine ⟨fun o ho => ?_, ?_⟩
    · have hm : Mirrors o ⟨self.options.get o, self.ch.bind (·.value o)⟩ self :=
        ⟨rfl, fun h hh => by rw [hh]; rfl⟩
      have hkept := (call_mirrors php hm (hc o ho) hrequest).kept
      rcases events_kept hrequest ⟨self.options.get o, self.ch.bind (·.value o)⟩ with h | h
      · rw [hkept, h]
        exact hstate.notNull o ho
      · rw [hkept, h]
        simp
    · have hm : Mirrors .customrequest ⟨self.options.get .customrequest, last.map .text⟩ self := ⟨rfl, hstate.live⟩
      have hafter := call_mirrors php hm (hc _ (by simp [methodOptions])) hrequest
      intro h hh
      rw [hafter.live h hh]
      exact events_live hrequest rfl

theorem run_methodState {s : Session} {calls : List Call} (hstate : MethodState last s.obj)
    (hcalls : ∀ c ∈ calls, LeavesMethod c) (hend : (run (step php) s calls).ended = false) :
    MethodState (calls.foldl Call.custom last) (run (step php) s calls).obj := by
  induction calls generalizing s last with
  | nil => exact hstate
  | cons c calls ih =>
    obtain ⟨hc, hcalls⟩ := List.forall_mem_cons.mp hcalls
    have hfirst := ended_first hend
    obtain ⟨hobj, hfatal⟩ := step_goes hfirst
    refine ih ?_ hcalls hend
    rw [hobj]
    exact call_methodState hstate hc hfatal

/-- A request's own option switches to its method. -/
theorem switches_methodOption {method : Octets} (h : customMethod method = none) :
    switches (methodOption method) = some (strtoupper method) := by
  have hne : (methodOption method).1 ≠ .customrequest := by
    intro hc
    rw [customMethod, if_pos hc] at h
    cases h
  rw [methodOption] at hne ⊢
  split
  · next hm => rw [hm]; rfl
  · next h₁ =>
    rw [if_neg h₁] at hne
    split
    · next hm => rw [hm]; rfl
    · next h₂ =>
      rw [if_neg h₂] at hne
      split
      · next hm => rw [hm]; rfl
      · next h₃ =>
        rw [if_neg h₃] at hne
        exact absurd rfl hne

theorem switches_mem {p : Opt × Value} {method : Octets} (h : switches p = some method) : p.1 ∈ methodOptions := by
  unfold switches at h
  split at h
  · simp [methodOptions]
  · simp [methodOptions]
  · simp [methodOptions]
  · cases h

end

theorem findSome_eq {α β : Type} {f : α → Option β} {l : List α} {b : β} (hall : ∀ x ∈ l, ∀ b', f x = some b' → b' = b)
    (hsome : ∃ x ∈ l, f x = some b) : l.findSome? f = some b := by
  cases hfound : l.findSome? f with
  | none =>
    obtain ⟨x, hx, hfx⟩ := hsome
    rw [List.findSome?_eq_none_iff.mp hfound x hx] at hfx
    cases hfx
  | some b' =>
    obtain ⟨x, hx, hfx⟩ := List.exists_of_findSome?_eq_some hfound
    rw [hall x hx b' hfx]

/-- The method that a request's own options switch to. -/
theorem findSome_own {php : Php} {self : Curl} {last : Option Octets} {url method : Octets} {params : Given}
    (hstate : MethodState last self) (hown : customMethod method = none) :
    ((self.prepare php url method params).collect php).options.entries.reverse.findSome? switches =
      some (strtoupper method) := by
  have hget := fun o ho => get_method_collect php hstate (o := o) ho url method params
  refine findSome_eq (fun x hx m hm => ?_) ⟨methodOption method, ?_, switches_methodOption hown⟩
  · have hmem := (PhpArray.mem_entries_iff _).mp (List.mem_reverse.mp hx)
    rw [hget x.1 (switches_mem hm)] at hmem
    split at hmem
    · next hkey =>
      have hx : x = methodOption method := Prod.ext hkey.symm (Option.some.inj hmem).symm
      rw [hx, switches_methodOption hown] at hm
      exact (Option.some.inj hm).symm
    · cases hmem
  · rw [List.mem_reverse, PhpArray.mem_entries_iff, hget _ (methodOption_mem method), if_pos rfl]

/-- In a run from a new object that leaves the options of the method to the requests, a request goes out
    with its own method, unless it is `HEAD`, `GET` or `POST` and there was a request with another one since
    the handle was made: then it goes out with that one's. -/
theorem verb_sent (php : Php) {calls : List Call} (hcalls : ∀ c ∈ calls, LeavesMethod c) {url method : Octets}
    {params : Given} {answer : Answer} {h : Handle}
    (hsent : (step php (run (step php) {} calls) (.request url method params answer)).sent = some h) :
    h.verb = ((customMethod method).or (calls.foldl Call.custom none)).getD (strtoupper method) := by
  obtain ⟨hgoes, -, hsend⟩ := step_sent hsent
  have hstart : MethodState none ({} : Curl) := by
    refine ⟨fun o _ => by simp, fun g hg => ?_⟩
    cases hg
    rfl
  have hstate := run_methodState hstart hcalls hgoes
  obtain ⟨-, hnone⟩ | ⟨-, hnone, -⟩ | ⟨g, hg, hset, -⟩ :=
    request_cases php (run (step php) {} calls).obj url method params answer
  · rw [call, hnone] at hsend
    cases hsend
  · rw [call, hnone] at hsend
    cases hsend
  · have heq := Option.some.inj (hset.symm.trans hsend)
    have hvalue := value_custom php hstate hg url method params
    rw [heq] at hvalue
    rw [Handle.verb, hvalue]
    cases hcustom : (customMethod method).or (calls.foldl Call.custom none) with
    | some m => rfl
    | none =>
      have hown : customMethod method = none := (Option.or_eq_none_iff.mp hcustom).1
      rw [← heq, List.reverse_append, List.findSome?_append, findSome_own hstate hown]
      rfl

/-- A page that is asked for behind a deletion is deleted. -/
theorem verb_sent_delete :
    let delete := Call.request [120] (octets "DELETE") .none ⟨.bool true, []⟩
    let get := Call.request [121] (octets "GET") .none ⟨.bool true, []⟩
    (step plainPhp (run (step plainPhp) {} [delete]) get).sent.map Handle.verb = some (octets "DELETE") := by
  intro delete get
  obtain ⟨h, hsent⟩ : ∃ h, (step plainPhp (run (step plainPhp) {} [delete]) get).sent = some h :=
    Option.isSome_iff_exists.mp (by with_unfolding_all decide)
  have hcalls : ∀ c ∈ [delete], LeavesMethod c := by
    intro c hc o _
    rw [List.mem_singleton.mp hc]
    exact id
  have hverb := verb_sent plainPhp hcalls hsent
  rw [hsent, Option.map_some, hverb]
  with_unfolding_all decide

end RubbishStore.Util.Http
