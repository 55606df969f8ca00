import RubbishStore.Lib.Markup
import RubbishStore.Util.SolrQuery

/- The XML texts `Util_Solr_Client` posts: `buildAddXml` writes documents, a field
   for each value, and `buildDeleteXml` writes ids or queries. Values go through
   `htmlspecialchars`, names are spliced in as they are. `parseAdd` and
   `parseDelete` read such a text back; what they return is what was written, for
   all values, and for names that do not break the markup (`addXml_parses`,
   `deleteXml_parses`). -/
namespace RubbishStore.Util.Solr
open RubbishStore.Lib RubbishStore.Lib.Markup

/-- A field's value: a string, or an array of strings. -/
inductive FieldValue where
  | one (value : Text)
  | many (values : List Text)
  deriving DecidableEq, Repr

/-- `Util_Solr_Document`: an ordered array of fields by name. -/
structure Document where
  fields : List (Text × FieldValue) := []
  deriving DecidableEq, Repr

/-- What a caller may put in the array of documents. -/
inductive Item where
  | document (doc : Document)
  | other
  deriving DecidableEq, Repr

/-- With `ENT_NOQUOTES`, for a valid string: quotes stay as they are. -/
def htmlspecialchars (s : Text) : Text := escape s

def buildFieldXml (name value : Text) : Text :=
  chars "<field name=\"" ++ name ++ chars "\">" ++ htmlspecialchars value ++ chars "</field>"

def buildDocXml (doc : Document) : Text :=
  chars "<doc>" ++
    doc.fields.flatMap (fun (name, value) =>
      match value with
      | .many values => values.flatMap fun multiVal => buildFieldXml name multiVal
      | .one value => buildFieldXml name value) ++
    chars "</doc>"

/-- The loop over the documents. -/
def addDocs (xml : Text) : List Item → Except SolrException Text
  | [] => .ok xml
  | .other :: _ =>
    .error ⟨"Invalid document, need objects of Util_Solr_Document."⟩
  | .document doc :: docs => addDocs (xml ++ buildDocXml doc) docs

def buildAddXml (docs : List Item) : Except SolrException Text := do
  return (← addDocs (chars "<add>") docs) ++ chars "</add>"

def DELETE_BY_ID : Nat := 1
def DELETE_BY_QUERY : Nat := 2

/-- The element of one item; another type gives none. -/
def deleteElement (type : Nat) (item : Text) : Text :=
  if type = DELETE_BY_ID then chars "<id>" ++ htmlspecialchars item ++ chars "</id>"
  else if type = DELETE_BY_QUERY then
    chars "<query>" ++ htmlspecialchars item ++ chars "</query>"
  else []

def buildDeleteXml (items : List Text) (type : Nat) : Text :=
  chars "<delete>" ++ items.flatMap (deleteElement type) ++ chars "</delete>"

/-! Reading the texts. -/

def openField (name : Text) : Text := chars "field name=\"" ++ name ++ ['"']

/-- The name in a field's opening tag. -/
def fieldName (tag : Text) : Option Text :=
  let name := (tag.drop 12).dropLast
  if tag = openField name then some name else none

/-- The documents that the tokens hold, with the fields read so far of an open one. -/
def readDocs : Option (List (Text × Text)) → List Token → Option (List (List (Text × Text)))
  | none, .tag t :: rest =>
    if t = chars "doc" then readDocs (some []) rest
    else if t = chars "/add" ∧ rest = [] then some []
    else none
  | some fields, .tag t :: rest =>
    if t = chars "/doc" then (readDocs none rest).map (fields :: ·)
    else
      match fieldName t, rest with
      | some name, .data value :: .tag e :: rest =>
        if e = chars "/field" then readDocs (some (fields ++ [(name, value)])) rest else none
      | some name, .tag e :: rest =>
        if e = chars "/field" then readDocs (some (fields ++ [(name, [])])) rest else none
      | _, _ => none
  | _, _ => none

def parseAdd (xml : Text) : Option (List (List (Text × Text))) := do
  match ← tokens xml with
  | .tag t :: rest => if t = chars "add" then readDocs none rest else none
  | _ => none

/-- The items in elements of one name. -/
def readItems (name : Text) : List Token → Option (List Text)
  | [.tag t] => if t = chars "/delete" then some [] else none
  | .tag t :: .data item :: .tag e :: rest =>
    if t = name ∧ e = '/' :: name then (readItems name rest).map (item :: ·) else none
  | .tag t :: .tag e :: rest =>
    if t = name ∧ e = '/' :: name then (readItems name rest).map ([] :: ·) else none
  | _ => none

def parseDelete (name : Text) (xml : Text) : Option (List Text) := do
  match ← tokens xml with
  | .tag t :: rest => if t = chars "delete" then readItems name rest else none
  | _ => none

/-! What stands in a text of documents. -/

/-- The pairs of a document: array values one by one. -/
def Document.pairs (doc : Document) : List (Text × Text) :=
  doc.fields.flatMap fun (name, value) =>
    match value with
    | .many values => values.map fun v => (name, v)
    | .one v => [(name, v)]

/-- The names do not break the markup. -/
def Document.PlainNames (doc : Document) : Prop :=
  ∀ f ∈ doc.fields, '<' ∉ f.1 ∧ '&' ∉ f.1 ∧ '"' ∉ f.1

def fieldTokens (p : Text × Text) : List Token :=
  elementTokens (openField p.1) p.2 (chars "/field")

def Document.tokens (doc : Document) : List Token :=
  .tag (chars "doc") :: doc.pairs.flatMap fieldTokens ++ [.tag (chars "/doc")]

theorem buildDocXml_eq (doc : Document) :
    buildDocXml doc =
      chars "<doc>" ++ doc.pairs.flatMap (fun p => buildFieldXml p.1 p.2) ++ chars "</doc>" := by
  rw [buildDocXml, Document.pairs, List.flatMap_assoc]
  congr 3
  funext ⟨name, value⟩
  cases value with
  | one v => simp
  | many vs => simp [List.flatMap_map]

theorem closed_openField {name : Text} (h : '"' ∉ name) : Closed false (openField name) := by
  have hquoted : Closed true (name ++ ['"']) := by
    induction name with
    | nil => exact ⟨fun _ => rfl, rfl⟩
    | cons c name ih =>
      have hc : (c == '"') = false := by
        rw [beq_eq_false_iff_ne]
        rintro rfl
        exact h List.mem_cons_self
      refine ⟨fun _ => rfl, ?_⟩
      rw [hc]
      exact ih fun hmem => h (List.mem_cons_of_mem c hmem)
  simpa [openField, chars, Closed] using hquoted

theorem fieldName_openField (name : Text) : fieldName (openField name) = some name := by
  have hname : ((openField name).drop 12).dropLast = name := by simp [openField, chars]
  simp [fieldName, hname]

theorem reads_fieldXml {name : Text} (h : '"' ∉ name) (value : Text) :
    Reads (buildFieldXml name value) (fieldTokens (name, value)) :=
  reads_element (by simp [buildFieldXml, openField, htmlspecialchars, chars]) (closed_openField h)
    (by simp [chars, Closed])

theorem reads_docXml {doc : Document} (h : doc.PlainNames) :
    Reads (buildDocXml doc) doc.tokens := by
  rw [buildDocXml_eq]
  have hopen : Reads (chars "<doc>") [.tag (chars "doc")] :=
    reads_tag (by simp [chars]) (by simp [chars, Closed])
  have hclose : Reads (chars "</doc>") [.tag (chars "/doc")] :=
    reads_tag (by simp [chars]) (by simp [chars, Closed])
  have hfields : Reads (doc.pairs.flatMap fun p => buildFieldXml p.1 p.2)
      (doc.pairs.flatMap fieldTokens) := by
    apply Reads.flatMap
    rintro ⟨name, value⟩ hmem
    apply reads_fieldXml
    obtain ⟨f, hf, hpair⟩ := List.mem_flatMap.mp hmem
    have hname : f.1 = name := by
      obtain ⟨n, v⟩ := f
      cases v <;> simp_all
    rw [← hname]
    exact (h f hf).2.2
  exact (hopen.append hfields).append hclose

/-! What is read from the tokens. -/

theorem readDocs_fields (fields pairs : List (Text × Text)) (rest : List Token) :
    readDocs (some fields) (pairs.flatMap fieldTokens ++ .tag (chars "/doc") :: rest) =
      (readDocs none rest).map ((fields ++ pairs) :: ·) := by
  induction pairs generalizing fields with
  | nil =>
    rw [List.flatMap_nil, List.nil_append, readDocs.eq_def, List.append_nil]
    exact if_pos rfl
  | cons p pairs ih =>
    obtain ⟨name, value⟩ := p
    have hopen : openField name ≠ chars "/doc" := by simp [openField, chars]
    have hnext := ih (fields ++ [(name, value)])
    rw [List.append_assoc, List.singleton_append] at hnext
    rw [List.flatMap_cons, List.append_assoc, ← hnext, fieldTokens, elementTokens]
    by_cases hvalue : value = []
    · subst hvalue
      rw [if_pos rfl]
      simp [readDocs, hopen, fieldName_openField]
    · rw [if_neg hvalue]
      simp [readDocs, hopen, fieldName_openField]

theorem readDocs_docs (docs : List Document) :
    readDocs none (docs.flatMap Document.tokens ++ [.tag (chars "/add")]) =
      some (docs.map Document.pairs) := by
  induction docs with
  | nil => simp [readDocs, chars]
  | cons doc docs ih =>
    rw [List.flatMap_cons, Document.tokens, List.append_assoc, List.append_assoc, List.cons_append,
      readDocs, if_pos rfl, List.singleton_append, readDocs_fields, ih]
    rfl

theorem readItems_items (name : Text) (items : List Text) :
    readItems name (items.flatMap (fun item => elementTokens name item ('/' :: name)) ++
      [.tag (chars "/delete")]) = some items := by
  induction items with
  | nil => simp [readItems]
  | cons item items ih =>
    rw [List.flatMap_cons, List.append_assoc, elementTokens]
    by_cases hitem : item = []
    · subst hitem
      rw [if_pos rfl]
      simp [readItems, ih]
    · rw [if_neg hitem]
      simp [readItems, ih]

theorem addDocs_documents (xml : Text) (docs : List Document) :
    addDocs xml (docs.map .document) = .ok (xml ++ docs.flatMap buildDocXml) := by
  induction docs generalizing xml with
  | nil => rw [List.map_nil, addDocs, List.flatMap_nil, List.append_nil]
  | cons doc docs ih =>
    rw [List.map_cons, addDocs, ih, List.flatMap_cons, List.append_assoc]

/-- The tags of a document's text: they depend on the names, and on the values only
    in their number. -/
def Document.tags (doc : Document) : List Text :=
  chars "doc" :: doc.pairs.flatMap (fun p => [openField p.1, chars "/field"]) ++ [chars "/doc"]

theorem tags_flatMap {A : Type} {f : A → List Token} {g : A → List Text}
    (h : ∀ a, tags (f a) = g a) (l : List A) : tags (l.flatMap f) = l.flatMap g := by
  induction l with
  | nil => rfl
  | cons a l ih => rw [List.flatMap_cons, List.flatMap_cons, tags_append, h, ih]

theorem tags_tokens (doc : Document) : tags doc.tokens = doc.tags := by
  have hfields := tags_flatMap (fun p => tags_elementTokens (openField p.1) p.2 (chars "/field"))
    doc.pairs
  rw [Document.tokens, tags_append]
  exact congrArg (fun ts => (chars "doc" :: ts) ++ [chars "/doc"]) hfields

/-- The tokens of a text of documents. -/
theorem addXml_tokens {docs : List Document} (h : ∀ doc ∈ docs, doc.PlainNames) :
    Reads (chars "<add>" ++ docs.flatMap buildDocXml ++ chars "</add>")
      (.tag (chars "add") :: docs.flatMap Document.tokens ++ [.tag (chars "/add")]) := by
  have hopen : Reads (chars "<add>") [.tag (chars "add")] :=
    reads_tag (by simp [chars]) (by simp [chars, Closed])
  have hclose : Reads (chars "</add>") [.tag (chars "/add")] :=
    reads_tag (by simp [chars]) (by simp [chars, Closed])
  exact (hopen.append (Reads.flatMap fun doc hdoc => reads_docXml (h doc hdoc))).append hclose

/-- The two kinds of deletion: the constant and the name of its elements. -/
def DeletesBy (type : Nat) (name : Text) : Prop :=
  (type = DELETE_BY_ID ∧ name = chars "id") ∨ (type = DELETE_BY_QUERY ∧ name = chars "query")

theorem deleteXml_tokens {type : Nat} {name : Text} (h : DeletesBy type name)
    (items : List Text) :
    Reads (buildDeleteXml items type)
      (.tag (chars "delete") ::
        items.flatMap (fun item => elementTokens name item ('/' :: name)) ++
        [.tag (chars "/delete")]) := by
  have hopen : Reads (chars "<delete>") [.tag (chars "delete")] :=
    reads_tag (by simp [chars]) (by simp [chars, Closed])
  have hclose : Reads (chars "</delete>") [.tag (chars "/delete")] :=
    reads_tag (by simp [chars]) (by simp [chars, Closed])
  refine (hopen.append (Reads.flatMap fun item _ => ?_)).append hclose
  obtain ⟨rfl, rfl⟩ | ⟨rfl, rfl⟩ := h
  · exact reads_element (by simp [deleteElement, htmlspecialchars, chars])
      (by simp [chars, Closed]) (by simp [chars, Closed])
  · exact reads_element
      (by simp [deleteElement, DELETE_BY_ID, DELETE_BY_QUERY, htmlspecialchars, chars])
      (by simp [chars, Closed]) (by simp [chars, Closed])

/-- Both texts parse to what they were built from, and their tags are those of the
    builder: no value has brought in another one. -/
theorem solrXml_parses (docs : List Document) (hdocs : ∀ doc ∈ docs, doc.PlainNames)
    (items : List Text) :
    (∃ xml, buildAddXml (docs.map .document) = .ok xml ∧
      parseAdd xml = some (docs.map Document.pairs) ∧
      (tokens xml).map tags = some (chars "add" :: docs.flatMap Document.tags ++ [chars "/add"])) ∧
    ∀ type name, DeletesBy type name →
      parseDelete name (buildDeleteXml items type) = some items ∧
      (tokens (buildDeleteXml items type)).map tags =
        some (chars "delete" :: items.flatMap (fun _ => [name, '/' :: name]) ++
          [chars "/delete"]) := by
  constructor
  · have hread := (addXml_tokens hdocs).tokens
    refine ⟨chars "<add>" ++ docs.flatMap buildDocXml ++ chars "</add>", ?_, ?_, ?_⟩
    · rw [buildAddXml, addDocs_documents]
      rfl
    · rw [parseAdd, hread]
      exact (if_pos rfl).trans (readDocs_docs docs)
    · have htags := tags_flatMap tags_tokens docs
      rw [hread, Option.map_some, tags_append]
      exact congrArg (fun ts => some ((chars "add" :: ts) ++ [chars "/add"])) htags
  · intro type name htype
    have hread := (deleteXml_tokens htype items).tokens
    constructor
    · rw [parseDelete, hread]
      exact (if_pos rfl).trans (readItems_items name items)
    · have htags := tags_flatMap (fun item => tags_elementTokens name item ('/' :: name)) items
      rw [hread, Option.map_some, tags_append]
      exact congrArg (fun ts => some ((chars "delete" :: ts) ++ [chars "/delete"])) htags

/-- A document whose values look like markup. -/
theorem solrXml_parses_markup :
    let doc : Document := ⟨[(chars "t>1", .one (chars "</doc><x>")),
      (chars "tag", .many [chars "a&lt;b", [], chars "\"'"])]⟩
    ∃ xml, buildAddXml [.document doc] = .ok xml ∧ parseAdd xml = some [doc.pairs] := by
  obtain ⟨xml, hxml, hparse, -⟩ := (solrXml_parses
    [⟨[(chars "t>1", .one (chars "</doc><x>")),
      (chars "tag", .many [chars "a&lt;b", [], chars "\"'"])]⟩] (by
        simp only [Document.PlainNames, List.forall_mem_singleton, List.forall_mem_cons, chars]
        decide) []).1
  exact ⟨xml, hxml, hparse⟩

end RubbishStore.Util.Solr
