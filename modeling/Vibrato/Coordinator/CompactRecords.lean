import Vibrato.Coordinator.AssertRecords

namespace Vibrato.Coordinator.Records

open Lib Value

def MAX_NORMAL_BYTES : Nat := 1024 * 1024

def EMERGENCY_BYTES : Nat := 128 * 1024

section Compaction

variable (rt : Runtime) (now : Int)

/-- `Date.parse(time) + RETENTION_MS < now`. -/
def old (time : Value) : Bool := (rt.parseDate time.text).any fun at_ => at_ + RETENTION_MS < now

variable (canonical : Canonical)

/-- A completed request that is old, and whose id the text of the canonical state does not
contain. -/
def expired (id : Text) (request : Json) : Bool :=
  (get request "phase").oneOf ["completed"] && old rt now (get request "updated_at") &&
    !decide (id <:+: canonical.toJson.stringify)

def expireGroup (group : Table) : Table :=
  group.retain fun id request => !expired rt now canonical id request

variable (tx : SessionTransaction Records)

def expireRequests : SessionTransaction Records :=
  { tx with
    rest.requests.prompts := expireGroup rt now tx.rest.canonical tx.rest.requests.prompts
    rest.requests.answers := expireGroup rt now tx.rest.canonical tx.rest.requests.answers
    rest.requests.operations := expireGroup rt now tx.rest.canonical tx.rest.requests.operations }

def sortsTurnBefore (left right : Json) : Prop :=
  ((rt.localeCompare (get left "updated_at").text (get right "updated_at").text).then
    (rt.localeCompare (get left "turn_id").text (get right "turn_id").text)) ≠ .gt

instance : DecidableRel (sortsTurnBefore rt) := fun _ _ => inferInstanceAs (Decidable (_ ≠ _))

def terminalTurnIds (canonical : Canonical) : List Text :=
  ((canonical.turns.values.filter fun turn : Json =>
    (get turn "status").oneOf TERMINAL_STATUSES).insertionSort (sortsTurnBefore rt)).map
      fun turn : Json => (get turn "turn_id").text

def isPromotion (canonical : Canonical) (turnId : Text) : Bool :=
  let promotion := get canonical.queue "selected_promotion"
  (promotion.get "from_turn_id").is turnId || (promotion.get "to_turn_id").is turnId

def isNeeded (operations : Table) (turnId : Text) : Bool :=
  operations.values.any fun request =>
    ((get request "intent").get "turn_id").is turnId &&
      (!(get request "phase").oneOf ["completed"] ||
        ((get request "safe_response").isSome && !old rt now (get request "updated_at")))

def questionIds (turn : Value) : List Text :=
  ((turn.get "question_ids").items?.getD []).map fun id => text (some id)

/-- The transaction without the turns and questions whose ids are in two sets, and without the
authorities, requests, and reports of a set of turns. -/
def deleteRecords (turnGone questionGone : Text → Bool) (ownerGone : Value → Bool)
    (tx : SessionTransaction Records) : SessionTransaction Records :=
  { tx with rest :=
    { tx.rest with
      canonical :=
        { tx.rest.canonical with
          turns := tx.rest.canonical.turns.retain fun id _ => !turnGone id
          questions := tx.rest.canonical.questions.retain fun id _ => !questionGone id
          gateAuthorities := tx.rest.canonical.gateAuthorities.retain fun _ authority =>
            !ownerGone ((get authority "outcome").get "turn_id")
          reports := tx.rest.canonical.reports.retain fun _ report =>
            !ownerGone (get report "turn_id") }
      requests :=
        { prompts := tx.rest.requests.prompts.retain fun _ request =>
            !ownerGone (get request "coordinator_turn_id")
          answers := tx.rest.requests.answers.retain fun _ request =>
            !ownerGone (get request "turn_id")
          operations := tx.rest.requests.operations.retain fun _ request =>
            !ownerGone ((get request "intent").get "turn_id") } } }

def deleteTurn (turnId : Text) (turn : Json) :
    SessionTransaction Records → SessionTransaction Records :=
  deleteRecords (fun id => decide (id = turnId)) (fun id => decide (id ∈ questionIds (some turn)))
    (·.is turnId)

def deleteTurns : List Text → SessionTransaction Records → SessionTransaction Records
  | [], tx => tx
  | turnId :: turnIds, tx =>
    match tx.rest.canonical.turns.get? turnId with
    | none => deleteTurns turnIds tx
    | some turn =>
      if isPromotion tx.rest.canonical turnId then deleteTurns turnIds tx
      else if isNeeded rt now tx.rest.requests.operations turnId then deleteTurns turnIds tx
      else
        let tx := deleteTurn turnId turn tx
        if rt.bytes tx ≤ MAX_NORMAL_BYTES then tx else deleteTurns turnIds tx

def deleteForSize : SessionTransaction Records :=
  if MAX_NORMAL_BYTES < rt.bytes tx then
    deleteTurns rt now (terminalTurnIds rt tx.rest.canonical) tx
  else tx

def compactRecords : Except Text Records :=
  let tx := deleteForSize rt now (expireRequests rt now tx)
  if MAX_NORMAL_BYTES + EMERGENCY_BYTES < rt.bytes tx then throw "query_unavailable".toList
  else return tx.rest

end Compaction

/-- `value.name = property` on an object. -/
def setProperty (value : Json) (name : String) (property : Json) : Json :=
  match value with
  | .obj members =>
    if members.any fun member => member.1 = name.toList then
      .obj (members.map fun member => if member.1 = name.toList then (member.1, property)
        else member)
    else .obj (members ++ [(name.toList, property)])
  | other => other

def markScheduler (rt : Runtime) (sessionId : Text) (revision : Nat) (records : Records) :
    Records :=
  let mark : Json := .obj [("session_id".toList, .str sessionId),
    ("revision".toList, .num (JsonNumber.ofNat revision)),
    ("active".toList, .bool (!(get records.canonical.queue "active_turn_id").isNull)),
    ("state".toList, records.canonical.desiredSessionState)]
  let pending := setProperty records.projection "scheduler_pending_revision"
    (.num (JsonNumber.ofNat revision))
  { records with projection := setProperty pending "scheduler_digest" (.str
    (rt.digest mark.stringify)) }

end Records

def Runtime.env (rt : Runtime) (namespaceId sessionId : Text) : Env Records where
  localeCompare := rt.localeCompare
  assertRest := Records.assertRecords rt namespaceId sessionId
  compactRest := Records.compactRecords rt
  markScheduler := Records.markScheduler rt sessionId

end Vibrato.Coordinator
