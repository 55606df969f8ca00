import RubbishStore.Lib.Assoc
import RubbishStore.Lib.PhpNumber
import RubbishStore.Lib.PhpText
import RubbishStore.Lib.Replace
import RubbishStore.Util.Strings

/- The rules of `Util_Validator`: how a rule is written, and the methods that decide
   it. They read the data and the rules of the validator, and nothing else of it.
   What PHP itself and its extensions answer (comparisons of mixed values, regular
   expressions, dates, names) is given by a `Php`. -/
namespace RubbishStore.Util.Validator
open RubbishStore.Lib

/-- A key of a PHP array. -/
inductive Key where
  | int (i : Int)
  | str (s : Text)
  deriving DecidableEq, Repr

/-- A text used as a key: what reads as a whole number is one. -/
def Key.ofText (s : Text) : Key :=
  let i := (PhpNumber.intval (fun _ => PhpNumber.saturate 0) s).1
  if PhpNumber.text i = s then .int i else .str s

def Key.text : Key → Text
  | .int i => PhpNumber.text i
  | .str s => s

/-- A value of the data; the values that are neither null nor texts are in `O`. -/
inductive Value (O : Type) where
  | null
  | str (s : Text)
  | other (o : O)
  deriving DecidableEq, Repr

/-- A parameter of a rule; `str_getcsv` gives null for the empty text. -/
abbrev Param : Type := Option Text

/-- What may be raised while a rule is tried; `X` is what PHP raises by itself. -/
inductive Fault (X : Type) where
  | invalidArgument (message : Text)
  | undefinedMethod (method : Text)
  /-- A recursion without an end. -/
  | endless
  | php (x : X)
  deriving DecidableEq, Repr

/-- `isset($value)` -/
def Value.isSet {O : Type} : Value O → Bool
  | .null => false
  | _ => true

abbrev Data (O : Type) : Type := List (Key × Value O)

/-- The conditions of each attribute. -/
abbrev RuleSet : Type := List (Key × List Text)

inductive Filter where
  | email | ip | url | int
  deriving DecidableEq, Repr

/-- What the functions and operators of PHP answer. -/
structure Php (X O : Type) where
  strGetcsv : Text → List Param
  /-- `array_key_exists($attribute, $this->files)`; there is no property `files`. -/
  keyOfFiles : Key → Except (Fault X) Bool
  /-- The text that a value is turned into. -/
  text : O → Except (Fault X) Text
  ofInt : Int → O
  /-- `=== 1` -/
  isOne : O → Bool
  isArray : O → Bool
  count : O → Int
  isDateTime : O → Bool
  isNumeric : Value O → Bool
  /-- `==` and `<=` -/
  looseEq : Value O → Value O → Bool
  looseLe : Value O → Value O → Bool
  /-- `function_exists('mb_strlen')` -/
  mbString : Bool
  filterVar : Filter → Value O → Bool
  pregMatch : Text → Text → Bool
  checkdnsrr : Text → Except (Fault X) Bool
  strtotime : Text → Option Int
  /-- `checkdate` of what `date_parse` gives. -/
  checkdate : Text → Except (Fault X) Bool
  /-- The `error_count` and the `warning_count`. -/
  dateParseFromFormat : Text → Text → Nat × Nat

section
variable {X O : Type} (php : Php X O) (data : Data O) (rules : RuleSet)

/-! How a rule is written. -/

def trimText (s : Text) : Text := PhpText.trim Char.toNat s

def lowerText (s : Text) : Text := s.map Char.toLower

/-- `str_replace` of one word. -/
def strReplace (search replace subject : Text) : Text :=
  Replace.substitute (Replace.ofWord id search) replace 0 subject

def parseParameters (rule parameter : Text) : List Param :=
  if lowerText rule = chars "regex" then [some parameter] else php.strGetcsv parameter

/-- The name of a rule, and its parameters, which stand behind the first colon. -/
def parseRule (rule : Text) : Text × List Param :=
  if ':' ∈ rule then
    let parameter := (rule.dropWhile fun c => c ≠ ':').tail
    let rule := rule.takeWhile fun c => c ≠ ':'
    (Strings.studly rule, parseParameters php rule parameter)
  else (Strings.studly rule, [])

/-- `$parameters[$i]` as a text; one that is not there is null. -/
def paramText (parameters : List Param) (i : Nat) : Text := (parameters.getD i none).getD []

def valueOfParam : Param → Value O
  | none => .null
  | some s => .str s

def textOf : Value O → Except (Fault X) Text
  | .null => .ok []
  | .str s => .ok s
  | .other o => php.text o

def getValue (attr : Key) : Value O := (data.lookup attr).getD .null

def hasRule (attr : Key) (names : List Text) : Bool :=
  ((rules.lookup attr).getD []).any fun rule => names.contains (parseRule php rule).1

def requireParameterCount (count : Nat) (parameters : List Param) (rule : String) :
    Except (Fault X) Unit :=
  if parameters.length < count then
    .error (.invalidArgument (chars ("Validation rule " ++ rule ++ " requires at least " ++
      toString count ++ " parameters.")))
  else .ok ()

/-! Whether a rule is tried at all. -/

def validateRequired : Value O → Bool
  | .null => false
  | .str s => trimText s ≠ []
  | .other _ => true

/-- The rules that are tried for a value that is missing as well. -/
def implicitRules : List Text :=
  ["Required", "RequiredWith", "RequiredWithAll", "RequiredWithout", "RequiredWithoutAll", "RequiredIf",
    "Accepted"].map chars

def presentOrRuleIsImplicit (rule : Text) (value : Value O) : Bool :=
  validateRequired value || implicitRules.contains rule

/-- The attribute is among the data, or else among the files. -/
def given (attr : Key) : Except (Fault X) Bool :=
  if (data.lookup attr).isSome then .ok true else php.keyOfFiles attr

def passesOptionalCheck (attr : Key) : Except (Fault X) Bool :=
  if hasRule php rules attr [chars "Optional"] then given php data attr else .ok true

def isValidatable (rule : Text) (attr : Key) (value : Value O) : Except (Fault X) Bool :=
  if presentOrRuleIsImplicit rule value then passesOptionalCheck php data rules attr
  else .ok false

/-! The methods. -/

/-- What a method is given. -/
structure Trial (O : Type) where
  data : Data O
  rules : RuleSet
  attr : Key
  value : Value O
  parameters : List Param

abbrev Method (X O : Type) : Type := Trial O → Except (Fault X) Bool

def Trial.param (t : Trial O) (i : Nat) : Value O := valueOfParam (t.parameters.getD i none)

/-- `$this->getValue($parameters[$i])` -/
def Trial.other (t : Trial O) (i : Nat) : Value O :=
  getValue t.data (Key.ofText (paramText t.parameters i))

/-- The values of the attributes that the parameters name. -/
def Trial.others (t : Trial O) : List (Value O) :=
  t.parameters.map fun parameter => getValue t.data (Key.ofText (parameter.getD []))

/-- A method that needs some parameters first. -/
def needing (count : Nat) (rule : String) (method : Method X O) : Method X O := fun t => do
  requireParameterCount count t.parameters rule
  method t

def validateAccepted : Method X O := fun t =>
  .ok <| validateRequired t.value &&
    match t.value with
    | .null => false
    | .str s => ["yes", "on", "1"].any fun accepted => s = chars accepted
    | .other o => php.isOne o

def validateActiveUrl : Method X O := fun t => do
  let value ← textOf php t.value
  php.checkdnsrr <| [chars "http://", chars "https://", chars "ftp://"].foldl
    (fun url scheme => strReplace scheme [] url) (lowerText value)

/-- `$value == $other`, where the other one is set. -/
def sameAs (t : Trial O) (other : Value O) : Bool := other.isSet && php.looseEq t.value other

def validateSame : Method X O := needing 1 "same" fun t => .ok (sameAs php t (t.other 0))

def validateConfirmed : Method X O := fun t =>
  validateSame php { t with parameters := [some (t.attr.text ++ chars "_confirmation")] }

def validateDifferent : Method X O := needing 1 "different" fun t =>
  .ok ((t.other 0).isSet && !php.looseEq t.value (t.other 0))

def validateEmail : Method X O := fun t => .ok (php.filterVar .email t.value)

def validateIp : Method X O := fun t => .ok (php.filterVar .ip t.value)

def validateUrl : Method X O := fun t => .ok (php.filterVar .url t.value)

def validateInteger : Method X O := fun t => .ok (php.filterVar .int t.value)

/-- `preg_match` of the value. -/
def matching (pattern : Text) : Method X O := fun t => do
  return php.pregMatch pattern (← textOf php t.value)

def validateAlpha : Method X O := matching php (chars "/^\\pL+$/u")

def validateAlphaNum : Method X O := matching php (chars "/^[\\pL\\pN]+$/u")

def validateAlphaDash : Method X O := matching php (chars "/^[\\pL\\pN_-]+$/u")

def validateRegex : Method X O := needing 1 "regex" fun t =>
  matching php (paramText t.parameters 0) t

def validateDate : Method X O := fun t =>
  let parsed : Except (Fault X) Bool := do
    let value ← textOf php t.value
    if (php.strtotime value).isNone then .ok false else php.checkdate value
  match t.value with
  | .other o => if php.isDateTime o then .ok true else parsed
  | _ => parsed

def validateDateFormat : Method X O := needing 1 "date_format" fun t => do
  let parsed := php.dateParseFromFormat (paramText t.parameters 0) (← textOf php t.value)
  return parsed.1 = 0 ∧ parsed.2 = 0

/-- A time as a truth value; there is none where `strtotime` is false. -/
def isTime (time : Option Int) : Bool := time ≠ none ∧ time ≠ some 0

/-- `$time < $time'`, where a false one makes it a comparison of truth values. -/
def timeLt : Option Int → Option Int → Bool
  | some time, some time' => time < time'
  | time, time' => !isTime time && isTime time'

/-- The time of the first parameter, or else of the value of the attribute it names. -/
def timeOfParam (t : Trial O) : Except (Fault X) (Option Int) := do
  let date := php.strtotime (paramText t.parameters 0)
  if isTime date then return date
  else return php.strtotime (← textOf php (t.other 0))

def validateBefore : Method X O := needing 1 "before" fun t => do
  return timeLt (php.strtotime (← textOf php t.value)) (← timeOfParam php t)

def validateAfter : Method X O := needing 1 "after" fun t => do
  let value ← textOf php t.value
  return timeLt (← timeOfParam php t) (php.strtotime value)

def isArray : Value O → Bool
  | .other o => php.isArray o
  | _ => false

def validateArray : Method X O := fun t => .ok (isArray php t.value)

def validateNumeric : Method X O := fun t => .ok (php.isNumeric t.value)

def numericRules : List Text := [chars "Numeric", chars "Integer"]

/-- `strlen` of a text in UTF-8. -/
def strlen (s : Text) : Nat := s.foldl (fun n c => n + c.utf8Size) 0

def getStringSize (value : Value O) : Except (Fault X) Int := do
  let value ← textOf php value
  return if php.mbString then value.length else strlen value

def getSize (t : Trial O) : Except (Fault X) (Value O) :=
  let hasNumeric := hasRule php t.rules t.attr numericRules
  if php.isNumeric t.value && hasNumeric then .ok (getValue t.data t.attr)
  else do
    let size : Int ← match t.value with
      | .other o => if php.isArray o then .ok (php.count o) else getStringSize php t.value
      | _ => getStringSize php t.value
    return .other (php.ofInt size)

def validateDigits : Method X O := needing 1 "digits" fun t => do
  if php.isNumeric t.value then
    let length := strlen (← textOf php t.value)
    return php.looseEq (.other (php.ofInt length)) (t.param 0)
  else return false

def validateDigitsBetween : Method X O := needing 2 "digits_between" fun t => do
  let length : Value O := .other (php.ofInt (strlen (← textOf php t.value)))
  return php.looseLe (t.param 0) length && php.looseLe length (t.param 1)

def validateSize : Method X O := needing 1 "size" fun t => do
  return php.looseEq (← getSize php t) (t.param 0)

def validateBetween : Method X O := needing 2 "between" fun t => do
  let size ← getSize php t
  return php.looseLe (t.param 0) size && php.looseLe size (t.param 1)

def validateMin : Method X O := needing 1 "min" fun t => do
  return php.looseLe (t.param 0) (← getSize php t)

def validateMax : Method X O := needing 1 "max" fun t => do
  return php.looseLe (← getSize php t) (t.param 0)

/-- `in_array($value, $parameters)` -/
def inParameters (t : Trial O) : Bool :=
  t.parameters.any fun parameter => php.looseEq t.value (valueOfParam parameter)

def validateIn : Method X O := fun t => .ok (inParameters php t)

def validateNotIn : Method X O := fun t => .ok !(inParameters php t)

def validateOptional : Method X O := fun _ => .ok true

def validateFilled : Method X O := fun t => do
  if ← given php t.data t.attr then return validateRequired t.value else return true

def anyFailingRequired (t : Trial O) : Bool := t.others.any fun value => !validateRequired value

def allFailingRequired (t : Trial O) : Bool := t.others.all fun value => !validateRequired value

/-- Required under a condition. -/
def requiredWhere (condition : Trial O → Bool) : Method X O := fun t =>
  .ok (if condition t then validateRequired t.value else true)

def validateRequiredWith : Method X O := requiredWhere fun t => !allFailingRequired t

def validateRequiredWithAll : Method X O := requiredWhere fun t => !anyFailingRequired t

def validateRequiredWithout : Method X O := requiredWhere anyFailingRequired

def validateRequiredWithoutAll : Method X O := requiredWhere allFailingRequired

def validateRequiredIf : Method X O := needing 2 "required_if" <|
  requiredWhere fun t => php.looseEq (t.param 1) (t.other 0)

/-- The methods, by the names of their rules. -/
def methods : List (Text × Method X O) :=
  [(chars "Required", requiredWhere fun _ => true), (chars "Optional", validateOptional),
    (chars "Filled", validateFilled php), (chars "Accepted", validateAccepted php),
    (chars "ActiveUrl", validateActiveUrl php), (chars "Confirmed", validateConfirmed php),
    (chars "Same", validateSame php), (chars "Different", validateDifferent php),
    (chars "Email", validateEmail php), (chars "Ip", validateIp php), (chars "Url", validateUrl php),
    (chars "Alpha", validateAlpha php), (chars "AlphaNum", validateAlphaNum php),
    (chars "AlphaDash", validateAlphaDash php), (chars "Regex", validateRegex php),
    (chars "Date", validateDate php), (chars "DateFormat", validateDateFormat php),
    (chars "Before", validateBefore php), (chars "After", validateAfter php),
    (chars "Array", validateArray php), (chars "Numeric", validateNumeric php),
    (chars "Integer", validateInteger php), (chars "Digits", validateDigits php),
    (chars "DigitsBetween", validateDigitsBetween php), (chars "Size", validateSize php),
    (chars "Between", validateBetween php), (chars "Min", validateMin php), (chars "Max", validateMax php),
    (chars "In", validateIn php), (chars "NotIn", validateNotIn php),
    (chars "RequiredWith", validateRequiredWith), (chars "RequiredWithAll", validateRequiredWithAll),
    (chars "RequiredWithout", validateRequiredWithout),
    (chars "RequiredWithoutAll", validateRequiredWithoutAll), (chars "RequiredIf", validateRequiredIf php)]

/-- An entry of a table of methods; PHP does not tell upper and lower case apart here. -/
def findMethod {α : Type} (table : List (Text × α)) (rule : Text) : Option α :=
  (table.find? fun entry => lowerText entry.1 = lowerText rule).map Prod.snd

/-- `$this->$method(...)`; without a rule the method is `validate` itself, which is not here. -/
def callMethod (rule : Text) (t : Trial O) : Except (Fault X) Bool :=
  match findMethod (methods php) rule with
  | some method => method t
  | none => .error (.undefinedMethod (chars "validate" ++ rule))

/-! What is reported of a rule that fails. -/

/-- A message, or the messages of a rule about sizes, which are taken all together. -/
inductive Message where
  | text (s : Text)
  | texts (ss : List (Text × Text))
  deriving DecidableEq, Repr

def Message.map (f : Text → Text) : Message → Message
  | .text s => .text (f s)
  | .texts ss => .texts (ss.map fun s => (s.1, f s.2))

def format (name text : String) : Text × Message := (chars name, .text (chars text))

def formats (name numeric file string array : String) : Text × Message :=
  (chars name, .texts [(chars "numeric", chars numeric), (chars "file", chars file),
    (chars "string", chars string), (chars "array", chars array)])

def messageFormats : List (Text × Message) :=
  [format "accepted" "The :attribute must be accepted.",
    format "active_url" "The :attribute is not a valid URL.",
    format "after" "The :attribute must be a date after :date.",
    format "alpha" "The :attribute may only contain letters.",
    format "alpha_dash" "The :attribute may only contain letters, numbers, and dashes.",
    format "alpha_num" "The :attribute may only contain letters and numbers.",
    format "array" "The :attribute must be an array.",
    format "before" "The :attribute must be a date before :date.",
    formats "between" "The :attribute must be between :min and :max."
      "The :attribute must be between :min and :max kilobytes."
      "The :attribute must be between :min and :max characters."
      "The :attribute must have between :min and :max items.",
    format "confirmed" "The :attribute confirmation does not match.",
    format "date" "The :attribute is not a valid date.",
    format "date_format" "The :attribute does not match the format :format.",
    format "different" "The :attribute and :other must be different.",
    format "digits" "The :attribute must be :digits digits.",
    format "digits_between" "The :attribute must be between :min and :max digits.",
    format "email" "The :attribute must be a valid email address.",
    format "exists" "The selected :attribute is invalid.",
    format "image" "The :attribute must be an image.",
    format "in" "The selected :attribute is invalid.",
    format "integer" "The :attribute must be an integer.",
    format "ip" "The :attribute must be a valid IP address.",
    formats "max" "The :attribute may not be greater than :max."
      "The :attribute may not be greater than :max kilobytes."
      "The :attribute may not be greater than :max characters."
      "The :attribute may not have more than :max items.",
    format "mimes" "The :attribute must be a file of type: :values.",
    formats "min" "The :attribute must be at least :min." "The :attribute must be at least :min kilobytes."
      "The :attribute must be at least :min characters." "The :attribute must have at least :min items.",
    format "not_in" "The selected :attribute is invalid.",
    format "numeric" "The :attribute must be a number.",
    format "regex" "The :attribute format is invalid.",
    format "required" "The :attribute field is required.",
    format "required_if" "The :attribute field is required when :other is :value.",
    format "required_with" "The :attribute field is required when :values is present.",
    format "required_without" "The :attribute field is required when :values is not present.",
    format "required_without_all" "The :attribute field is required when none of :values are present.",
    format "same" "The :attribute and :other must match.",
    formats "size" "The :attribute must be :size." "The :attribute must be :size kilobytes."
      "The :attribute must be :size characters." "The :attribute must contain :size items.",
    format "unique" "The :attribute has already been taken.",
    format "url" "The :attribute format is invalid."]

/-- The message of a rule; without one it is null, which `str_replace` makes the empty text. -/
def getMessage (rule : Text) : Message :=
  (messageFormats.lookup (Strings.snake rule)).getD (.text [])

abbrev Replacer : Type := List Param → Text → Text

/-- `str_replace(array(...), $parameters, $message)` -/
def replaceEach : List String → Replacer
  | [], _, message => message
  | search :: searches, parameters, message =>
    replaceEach searches parameters.tail
      (strReplace (chars search) (paramText parameters 0) message)

/-- `str_replace` by the first parameter. -/
def replaceFirst (search : String) : Replacer := replaceEach [search]

/-- `str_replace` by all the parameters. -/
def replaceJoined (search glue : String) : Replacer := fun parameters =>
  strReplace (chars search) ((chars glue).intercalate (parameters.map fun p => p.getD []))

def replaceBetween : Replacer := replaceEach [":min", ":max"]
def replaceDigits : Replacer := replaceFirst ":digits"
def replaceDigitsBetween : Replacer := replaceEach [":min", ":max"]
def replaceSize : Replacer := replaceFirst ":size"
def replaceMin : Replacer := replaceFirst ":min"
def replaceMax : Replacer := replaceFirst ":max"
def replaceIn : Replacer := replaceJoined ":values" ", "
def replaceNotIn : Replacer := replaceJoined ":values" ", "
def replaceMimes : Replacer := replaceJoined ":values" ", "
def replaceRequiredWith : Replacer := replaceJoined ":values" " / "
def replaceRequiredWithout : Replacer := replaceJoined ":values" " / "
def replaceRequiredWithoutAll : Replacer := replaceJoined ":values" " / "
def replaceRequiredIf : Replacer := replaceEach [":other", ":value"]
def replaceSame : Replacer := replaceFirst ":other"
def replaceDifferent : Replacer := replaceFirst ":other"
def replaceDateFormat : Replacer := replaceFirst ":format"
-- whether the parameter is a time makes no difference to the text of these two
def replaceBefore : Replacer := replaceFirst ":date"
def replaceAfter : Replacer := replaceFirst ":date"

def replacers : List (Text × Replacer) :=
  [(chars "Between", replaceBetween), (chars "Digits", replaceDigits),
    (chars "DigitsBetween", replaceDigitsBetween), (chars "Size", replaceSize), (chars "Min", replaceMin),
    (chars "Max", replaceMax), (chars "In", replaceIn), (chars "NotIn", replaceNotIn),
    (chars "Mimes", replaceMimes), (chars "RequiredWith", replaceRequiredWith),
    (chars "RequiredWithout", replaceRequiredWithout),
    (chars "RequiredWithoutAll", replaceRequiredWithoutAll), (chars "RequiredIf", replaceRequiredIf),
    (chars "Same", replaceSame), (chars "Different", replaceDifferent),
    (chars "DateFormat", replaceDateFormat), (chars "Before", replaceBefore), (chars "After", replaceAfter)]

def doReplacements (message : Message) (attr : Key) (rule : Text) (parameters : List Param) : Message :=
  let message := message.map (strReplace (chars ":attribute") attr.text)
  match findMethod replacers rule with
  | some replacer => message.map (replacer parameters)
  | none => message

/-- The rules that no message is registered for. -/
def unregistered : List Text := ["Optional", "Filled", "RequiredWithAll"].map chars

/-- The message of every other rule that has a method is found under its name. -/
theorem registered_of_mem_methods {rule : Text} {method : Method X O} (h : (rule, method) ∈ methods php)
    (hrule : rule ∉ unregistered) : (messageFormats.lookup (Strings.snake rule)).isSome := by
  have hname : rule ∈ (methods php).map Prod.fst := List.mem_map_of_mem (f := Prod.fst) h
  have hall : ∀ name ∈ (methods php).map Prod.fst, name ∉ unregistered →
      (messageFormats.lookup (Strings.snake name)).isSome := by
    simp only [methods, List.map_cons, List.map_nil]
    decide +kernel
  exact hall rule hname hrule

end

end RubbishStore.Util.Validator
