import Vibrato.Json
import Vibrato.Lib.OrderedMap
import Vibrato.Output.Bytes
import Vibrato.Coordinator.PublicDelivery

/-! The records of a coordinator session in `coordinator-mcp/question-state.ts`: the turns, reports,
gate authorities, and questions of its canonical state, and its requests. -/

namespace Vibrato.Coordinator

open Lib Text

/-- A value read from JSON; `none` is `undefined`. -/
abbrev Value := Option Json

namespace Value

/-- `value.name`, where `value` has the property or is an object without it. -/
def get (v : Value) (name : String) : Value := v.bind fun value => value.get? name.toList

/-- `typeof value === "object" && value !== null && !Array.isArray(value)`. -/
def isRecord : Value → Bool
  | some (.obj _) => true
  | _ => false

/-- `typeof value === "string"`. -/
def isString : Value → Bool
  | some (.str _) => true
  | _ => false

/-- `typeof value === "boolean"`. -/
def isBoolean : Value → Bool
  | some (.bool _) => true
  | _ => false

def isNull : Value → Bool
  | some .null => true
  | _ => false

variable (v : Value)

/-- `value === undefined || value === null`. -/
def isNullish : Bool := v.isNone || v.isNull

/-- `value === null || typeof value === "string"`. -/
def isStringOrNull : Bool := v.isNull || v.isString

/-- `value === true`. -/
def isTrue : Value → Bool
  | some (.bool true) => true
  | _ => false

def items? : Value → Option (List Json)
  | some (.arr items) => some items
  | _ => none

def text : Text := (v.bind Json.str?).getD []

/-- `typeof value === "string" && value.length > 0`. -/
def isNonempty : Bool := v.isString && !v.text.isEmpty

/-- `a === b`.  Two arrays or objects are not one. -/
def strictEq : Value → Value → Bool
  | none, none => true
  | some .null, some .null => true
  | some (.bool a), some (.bool b) => a = b
  | some (.num a), some (.num b) => a = b
  | some (.str a), some (.str b) => a = b
  | _, _ => false

/-- `value === text`. -/
def is (text : Text) : Bool := strictEq v (some (.str text))

/-- `options.includes(value)`. -/
def oneOf (options : List String) : Bool := options.any fun option => v.is option.toList

def integer? (number : JsonNumber) : Option Int :=
  match number.text with
  | '-' :: digits => if digits.all isDigit then some (-(parseDigits digits : Nat)) else none
  | digits => if digits.all isDigit then some (parseDigits digits : Nat) else none

def MAX_SAFE_INTEGER : Nat := 2 ^ 53 - 1

/-- The value of a number for which `Number.isSafeInteger` holds. -/
def safeInteger? : Value → Option Int
  | some (.num number) => (integer? number).filter fun n => decide (n.natAbs ≤ MAX_SAFE_INTEGER)
  | _ => none

/-- `Number.isSafeInteger(value) && value >= least`. -/
def isSafeInteger (least : Int) : Bool := v.safeInteger?.any fun n => decide (least ≤ n)

def joinRest : List Text → Text
  | [] => []
  | item :: items => ',' :: (item ++ joinRest items)

mutual

/-- `String(value)`. -/
def jsonString : Json → Text
  | .null => "null".toList
  | .bool true => "true".toList
  | .bool false => "false".toList
  | .num value => value.text
  | .str value => value
  | .arr items =>
    match itemStrings items with
    | [] => []
    | first :: rest => first ++ joinRest rest
  | .obj _ => "[object Object]".toList

def itemStrings : List Json → List Text
  | [] => []
  | .null :: items => [] :: itemStrings items
  | item :: items => jsonString item :: itemStrings items

end

def toText : Value → Text
  | none => "undefined".toList
  | some value => jsonString value

/-- `options.includes(String(value))`. -/
def namesOneOf (v : Value) (options : List String) : Bool :=
  options.any fun option => decide (v.toText = option.toList)

end Value

/-- `/^[a-zA-Z0-9][a-zA-Z0-9_.:-]{0,127}$/`. -/
def isSafeId : Text → Bool
  | [] => false
  | c :: rest => c.isAlphanum && rest.all isPublicIdChar && decide (rest.length ≤ 127)

def safeId (v : Value) : Bool := v.isString && isSafeId v.text

/-- `/^[a-f0-9]{64}$/`. -/
def isDigest (text : Text) : Bool :=
  text.all (fun c => '0' ≤ c && c ≤ '9' || 'a' ≤ c && c ≤ 'f') && decide (text.length = 64)

/-- `/^report-[a-f0-9]{64}$/`. -/
def coordinatorReportIdPattern (text : Text) : Bool :=
  startsWith text "report-".toList && isDigest (text.drop 7)

/-- A record of entries under their ids. -/
abbrev Table := OrderedMap Text Json

def inheritedNames : List Text :=
  ["constructor", "__defineGetter__", "__defineSetter__", "hasOwnProperty", "__lookupGetter__",
    "__lookupSetter__",
    "isPrototypeOf", "propertyIsEnumerable", "toString", "valueOf", "__proto__",
      "toLocaleString"].map String.toList

/-- `id in table`, and whether `table[id]` is an object. -/
def hasProperty (table : Table) (id : Text) : Bool := table.has id || decide (id ∈ inheritedNames)

structure Canonical where
  session : Json
  turns : Table
  queue : Json
  desiredSessionState : Json
  reports : Table
  gateAuthorities : Table
  questions : Table
  deriving DecidableEq

structure Requests where
  prompts : Table
  answers : Table
  operations : Table
  deriving DecidableEq

/-- What a transaction holds besides its session id, revision, and outbox. -/
structure Records where
  schemaVersion : Json
  creationIntentDigest : Json
  namespaceId : Json
  endpoint : Json
  canonical : Canonical
  requests : Requests
  projection : Json
  recovery : Json
  deriving DecidableEq

/-- The functions of the runtime: `Date.parse`, where `none` is `NaN`, the hexadecimal SHA-256
digest, `localeCompare`, and the JSON of an event with all its texts. -/
structure Runtime where
  parseDate : Text → Option Int
  digest : Text → Text
  localeCompare : Text → Text → Ordering
  eventJson : OutboxEvent → Json

def Canonical.toJson (canonical : Canonical) : Json :=
  .obj [("session".toList, canonical.session),
    ("turns".toList, .obj canonical.turns.entries),
    ("queue".toList, canonical.queue),
    ("desired_session_state".toList, canonical.desiredSessionState),
    ("reports".toList, .obj canonical.reports.entries),
    ("gate_authorities".toList, .obj canonical.gateAuthorities.entries),
    ("questions".toList, .obj canonical.questions.entries)]

def Requests.toJson (requests : Requests) : Json :=
  .obj [("prompts".toList, .obj requests.prompts.entries),
    ("answers".toList, .obj requests.answers.entries),
    ("operations".toList, .obj requests.operations.entries)]

namespace Runtime

variable (rt : Runtime)

variable (tx : SessionTransaction Records)

def transactionJson : Json :=
  .obj [("schema_version".toList, tx.rest.schemaVersion),
    ("creation_intent_digest".toList, tx.rest.creationIntentDigest),
    ("namespace_id".toList, tx.rest.namespaceId),
    ("session_id".toList, .str tx.sessionId),
    ("revision".toList, .num (JsonNumber.ofNat tx.revision)),
    ("endpoint".toList, tx.rest.endpoint),
    ("canonical".toList, tx.rest.canonical.toJson),
    ("requests".toList, tx.rest.requests.toJson),
    ("outbox".toList, .obj (tx.outbox.events.map fun event => (event.id, rt.eventJson event))),
    ("projection".toList, tx.rest.projection),
    ("recovery".toList, tx.rest.recovery)]

/-- `Buffer.byteLength(JSON.stringify(transaction))`. -/
def bytes : Nat :=
  Output.byteLength (rt.transactionJson tx).stringify

/-- `typeof value === "string" && Number.isFinite(Date.parse(value))`. -/
def isTime (v : Value) : Bool := v.isString && (rt.parseDate v.text).isSome

def isTimeOrNull (v : Value) : Bool := v.isNull || rt.isTime v

end Runtime

end Vibrato.Coordinator
