import Vibrato.Coordinator.Records

/-! What `assertTransaction` requires of the records of a session. -/

namespace Vibrato.Coordinator.Records

open Lib Value

section Fields

variable (rt : Runtime) (namespaceId sessionId : Text)

def TURN_STATUSES : List String :=
  ["queued", "delivering", "active", "waiting_for_answer", "completing", "completed", "failed",
    "cancelled", "superseded"]

def ACTIVE_STATUSES : List String := ["delivering", "active", "waiting_for_answer", "completing"]

def TERMINAL_STATUSES : List String := ["completed", "failed", "cancelled", "superseded"]

def VALID_STATES : List String :=
  ["booting", "prepared", "ready_for_input", "running", "needs_user_input", "completed", "errored",
    "stale", "unknown"]

def ACCEPTED_PHASES : List String := ["accepted", "linked", "terminal", "completed"]

def invalidAttempt (attempt : Value) : Bool :=
  !attempt.isRecord ||
  !(attempt.get "delivered").isBoolean ||
  !rt.isTime (attempt.get "created_at") ||
  !(attempt.get "reason").isStringOrNull ||
  ((attempt.get "channel").isSome && !(attempt.get "channel").oneOf ["tmux_keys", "runtime_ack"]) ||
  ((attempt.get "tmux_keys_sent").isSome && !(attempt.get "tmux_keys_sent").isBoolean)

def invalidDelivery (delivery : Value) : Bool :=
  !delivery.isRecord ||
  !(delivery.get "delivered").isBoolean ||
  !(delivery.get "queued").isBoolean ||
  !(delivery.get "target").isStringOrNull ||
  (delivery.get "attempts").items?.isNone ||
  ((delivery.get "prompt_acknowledged").isSome &&
    !(delivery.get "prompt_acknowledged").isBoolean) ||
  ((delivery.get "state").isSome && !(delivery.get "state").namesOneOf
    ["queued", "tmux_keys_sent", "acknowledged", "unavailable", "unacknowledged"]) ||
  ((delivery.get "tmux_keys_sent").isSome && !(delivery.get "tmux_keys_sent").isBoolean) ||
  ((delivery.get "runtime_command_id").isSome && !safeId (delivery.get "runtime_command_id")) ||
  ((delivery.get "runtime_turn_id").isSome && !safeId (delivery.get "runtime_turn_id")) ||
  ((delivery.get "attempts").items?.getD []).any
    (fun attempt => invalidAttempt rt (some attempt)) ||
  ((delivery.get "prompt_acknowledged").isTrue &&
    (!(delivery.get "state").oneOf ["acknowledged"] ||
      !safeId (delivery.get "runtime_command_id") || !safeId (delivery.get "runtime_turn_id")))

def invalidToken (validTurn : Value → Bool) (value : Value) : Bool :=
  !value.isRecord ||
  !(value.get "namespace_id").is namespaceId ||
  !(value.get "session_id").is sessionId ||
  !validTurn (value.get "coordinator_turn_id") ||
  !safeId (value.get "endpoint_incarnation") ||
  !safeId (value.get "runtime_turn_id") ||
  !rt.isTime (value.get "gate_created_at") ||
  !(value.get "schema_hash").isNonempty ||
  !(value.get "stage").isNonempty ||
  !(value.get "kind").isNonempty

def invalidProvenance (value : Value) (turnId : Text) : Bool :=
  !value.isNullish && invalidToken rt namespaceId sessionId (·.is turnId) value

def invalidAuthorityProvenance (value : Value) : Bool :=
  invalidToken rt namespaceId sessionId (fun turnId => turnId.is [] || safeId turnId) value

def invalidFinalResponse (response : Value) : Bool :=
  !response.isRecord ||
  !(response.get "text").isStringOrNull ||
  !(response.get "format").oneOf ["markdown"] ||
  !(response.get "source").isStringOrNull ||
  !(response.get "artifact_path").isStringOrNull ||
  !(response.get "truncated").isBoolean

def invalidError (error : Value) : Bool :=
  !error.isNullish &&
    (!error.isRecord || !(error.get "code").isString || !(error.get "message").isString ||
      !(error.get "recoverable").isBoolean)

def invalidLiveness (liveness : Value) : Bool :=
  liveness.isSome &&
    (!liveness.isRecord || (!(liveness.get "checked_at").isNullish &&
      !rt.isTime (liveness.get "checked_at")) ||
      (!(liveness.get "live").isNullish && !(liveness.get "live").isBoolean) ||
      (!(liveness.get "reason").isNullish && !(liveness.get "reason").isString))

def invalidTerminalFence (fence status : Value) : Bool :=
  !fence.isRecord ||
  !(fence.get "epoch").isSafeInteger 1 ||
  !(fence.get "status").strictEq status ||
  !rt.isTime (fence.get "at") ||
  !(fence.get "reason").isStringOrNull

def invalidProgress (turn : Value) : Bool :=
  if (turn.get "status").oneOf ["queued"] then
    !(turn.get "started_at").isNull || !(turn.get "completed_at").isNull ||
      !(turn.get "terminal_fence").isNull
  else if (turn.get "status").oneOf TERMINAL_STATUSES then
    !rt.isTime (turn.get "completed_at") ||
      invalidTerminalFence rt (turn.get "terminal_fence") (turn.get "status")
  else
    !rt.isTime (turn.get "started_at") || !(turn.get "completed_at").isNull ||
      !(turn.get "terminal_fence").isNull

/-- `!Array.isArray(ids) || new Set(ids).size !== ids.length`, or an item is no string that passes a
test. -/
def invalidIds (validId : Value → Bool) (ids : Value) : Bool :=
  match ids.items? with
  | none => true
  | some items => !decide items.Nodup || items.any fun id => !validId (some id)

def invalidTurn (turnId : Text) (entry : Json) : Bool :=
  let turn : Value := some entry
  !turn.isRecord ||
  (turn.get "schema_version").safeInteger? ≠ some 1 ||
  !(turn.get "turn_id").is turnId ||
  !(turn.get "session_id").is sessionId ||
  !(turn.get "namespace_id").is namespaceId ||
  !(turn.get "status").namesOneOf TURN_STATUSES ||
  !(turn.get "prompt").isRecord ||
  !((turn.get "prompt").get "text").isString ||
  !rt.isTime ((turn.get "prompt").get "created_at") ||
  !((turn.get "prompt").get "source").isString ||
  invalidDelivery rt (turn.get "delivery") ||
  invalidProvenance rt namespaceId sessionId (turn.get "runtime_provenance") turnId ||
  invalidIds isNonempty (turn.get "question_ids") ||
  invalidFinalResponse (turn.get "final_response") ||
  ((turn.get "evidence").isSome && ((turn.get "evidence").items?.isNone ||
    ((turn.get "evidence").items?.getD []).any fun item => !isRecord (some item))) ||
  invalidError (turn.get "error") ||
  invalidLiveness rt (turn.get "liveness") ||
  !rt.isTime (turn.get "created_at") ||
  !rt.isTime (turn.get "updated_at") ||
  !rt.isTimeOrNull (turn.get "started_at") ||
  !rt.isTimeOrNull (turn.get "completed_at") ||
  invalidProgress rt turn

def invalidReceipt (receipt : Value) : Bool :=
  receipt.isSome &&
    (!receipt.isRecord || !(receipt.get "accepted").isTrue || !safeId (receipt.get "command_id") ||
      !safeId (receipt.get "turn_id"))

/-- The part of `invalidPrompt` that looks at the request alone. -/
def invalidPromptFields (key : Text) (entry : Json) : Bool :=
  let request : Value := some entry
  !request.isRecord ||
  !(request.get "key_digest").is key ||
  !safeId (request.get "request_id") ||
  !safeId (request.get "key_digest") ||
  !safeId (request.get "request_digest") ||
  !(request.get "operation").oneOf ["turn.prompt", "turn.follow_up", "turn.abort_and_prompt"] ||
  !(request.get "canonical_prompt").isRecord ||
  !((request.get "canonical_prompt").get "text").isString ||
  !safeId (request.get "sdk_idempotency_key") ||
  !(request.get "phase").namesOneOf
    ["claimed", "remote_started", "accepted", "linked", "terminal", "completed", "uncertain"] ||
  !rt.isTime (request.get "created_at") ||
  !rt.isTime (request.get "updated_at") ||
  ((request.get "coordinator_turn_id").isSome && !safeId (request.get "coordinator_turn_id")) ||
  invalidReceipt (request.get "runtime_receipt") ||
  ((request.get "phase").oneOf ACCEPTED_PHASES && (request.get "coordinator_turn_id").isSome &&
    (request.get "runtime_receipt").isNone) ||
  ((request.get "safe_response").isSome && !(request.get "safe_response").isRecord) ||
  ((request.get "error_code").isSome && !(request.get "error_code").isString)

variable (turns : Table)

def danglingPrompt (entry : Json) : Bool :=
  (get entry "coordinator_turn_id").isSome &&
    !hasProperty turns (get entry "coordinator_turn_id").text

def invalidPrompt (key : Text) (entry : Json) : Bool :=
  invalidPromptFields rt key entry || danglingPrompt turns entry

def invalidSafeReceipt (request receipt : Value) : Bool :=
  receipt.isSome &&
    (!receipt.isRecord || !(receipt.get "status").namesOneOf ["accepted", "rejected"] ||
      !(receipt.get "answer_hash").strictEq (request.get "answer_hash") ||
      !(receipt.get "answer_binding_sha256").strictEq (request.get "answer_binding_sha256") ||
      !(receipt.get "authority_id").strictEq (request.get "authority_id") ||
      !(receipt.get "turn_id").strictEq (request.get "turn_id") ||
      !(receipt.get "endpoint_incarnation").strictEq (request.get "endpoint_incarnation") ||
      !(receipt.get "claim_fence_epoch").strictEq (request.get "claim_fence_epoch") ||
      !rt.isTime (receipt.get "resolved_at"))

/-- A receipt has the status that the phase of its request calls for, and there is none before
that. -/
def receiptOutOfPhase (phase receipt : Value) : Bool :=
  (phase.oneOf ["rejected"] && !(receipt.get "status").oneOf ["rejected"]) ||
  (phase.oneOf ["completed"] && !(receipt.get "status").oneOf ["accepted"]) ||
  (!phase.oneOf ["rejected", "completed"] && receipt.isSome)

/-- The part of `invalidAnswer` that looks at the request alone. -/
def invalidAnswerFields (key : Text) (entry : Json) : Bool :=
  let request : Value := some entry
  !request.isRecord ||
  !(request.get "key_digest").is key ||
  !safeId (request.get "request_id") ||
  !safeId (request.get "key_digest") ||
  !safeId (request.get "request_digest") ||
  !isDigest (request.get "answer_hash").toText ||
  !isDigest (request.get "answer_binding_sha256").toText ||
  !safeId (request.get "authority_id") ||
  !safeId (request.get "question_id") ||
  !safeId (request.get "turn_id") ||
  !safeId (request.get "endpoint_incarnation") ||
  !safeId (request.get "sdk_idempotency_key") ||
  !(request.get "claim_fence_epoch").isSafeInteger 1 ||
  !(request.get "phase").oneOf
    ["claimed", "remote_started", "accepted", "rejected", "completed", "uncertain"] ||
  !rt.isTime (request.get "created_at") ||
  !rt.isTime (request.get "updated_at") ||
  invalidSafeReceipt rt request (request.get "safe_receipt") ||
  receiptOutOfPhase (request.get "phase") (request.get "safe_receipt") ||
  ((request.get "error_code").isSome && !(request.get "error_code").isString)

/-- What a request and its question have to agree on.  A rejected receipt stays after a corrected
attempt has changed the question's active link. -/
def disagrees (question request : Value) : Bool :=
  !(question.get "authority_id").strictEq (request.get "authority_id") ||
  !(question.get "turn_id").strictEq (request.get "turn_id") ||
  !(question.get "endpoint_incarnation").strictEq (request.get "endpoint_incarnation") ||
  (!(request.get "phase").oneOf ["rejected"] &&
    (!(question.get "answer_request_id").strictEq (request.get "request_id") ||
      !(question.get "claim_fence_epoch").strictEq (request.get "claim_fence_epoch")))

variable (questions : Table)

/-- What an object inherits has no `authority_id`, so that it disagrees like a question that is
missing. -/
def danglingAnswer (entry : Json) : Bool :=
  match questions.get? (get entry "question_id").text with
  | none => true
  | some question => disagrees (some question) (some entry)

def invalidAnswer (key : Text) (entry : Json) : Bool :=
  invalidAnswerFields rt key entry || danglingAnswer questions entry

def invalidOperation (operationId : Text) (entry : Json) : Bool :=
  let operation : Value := some entry
  !operation.isRecord ||
  !(operation.get "operation_id").is operationId ||
  !isSafeId operationId ||
  !(operation.get "tool").isString ||
  !safeId (operation.get "key_digest") ||
  !safeId (operation.get "request_digest") ||
  !safeId (operation.get "local_id") ||
  ((operation.get "remote_id").isSome && !safeId (operation.get "remote_id")) ||
  !(operation.get "phase").oneOf ["claimed", "remote_started", "completed", "uncertain"] ||
  !(operation.get "intent").isRecord ||
  !rt.isTime (operation.get "created_at") ||
  !rt.isTime (operation.get "updated_at") ||
  ((operation.get "safe_response").isSome && !(operation.get "safe_response").isRecord) ||
  ((operation.get "error_code").isSome && !(operation.get "error_code").isString)

/-- The part of `invalidReport` that looks at the report alone. -/
def invalidReportFields (reportId : Text) (entry : Json) : Bool :=
  let report : Value := some entry
  !report.isRecord ||
  !coordinatorReportIdPattern reportId ||
  !(report.get "report_id").is reportId ||
  (report.get "schema_version").safeInteger? ≠ some 1 ||
  !(report.get "session_id").is sessionId ||
  !safeId (report.get "operation_id") ||
  (!(report.get "turn_id").is [] && !safeId (report.get "turn_id")) ||
  !(report.get "status").isString ||
  !(report.get "summary").isString ||
  !(report.get "blocker").isStringOrNull ||
  !(report.get "pr_url").isStringOrNull ||
  invalidIds isString (report.get "evidence_paths") ||
  !rt.isTime (report.get "created_at")

def danglingReport (entry : Json) : Bool :=
  !(get entry "turn_id").is [] && !hasProperty turns (get entry "turn_id").text

def invalidReport (reportId : Text) (entry : Json) : Bool :=
  invalidReportFields rt sessionId reportId entry || danglingReport turns entry

def linksQuestion (outcome : Value) : Bool := (outcome.get "state").oneOf ["pending", "answered"]

def invalidObservation (observation outcome : Value) : Bool :=
  if (observation.get "kind").oneOf ["valid"] then
    if (outcome.get "state").oneOf ["deferred_link"] then
      invalidToken rt namespaceId sessionId (·.is []) (observation.get "first_provenance")
    else if linksQuestion outcome then
      invalidProvenance rt namespaceId sessionId (observation.get "first_provenance")
        (if (outcome.get "turn_id").isNullish then [] else (outcome.get "turn_id").toText)
    else
      invalidAuthorityProvenance rt namespaceId sessionId (observation.get "first_provenance")
  else
    !(observation.get "kind").oneOf ["malformed"] ||
    !isDigest (if (observation.get "immutable_observation_digest").isNullish then []
      else (observation.get "immutable_observation_digest").toText) ||
    !(observation.get "malformed").namesOneOf
      ["missing_runtime_turn", "invalid_runtime_turn", "invalid_gate_row", "wrong_session"]

/-- The part of `invalidAuthority` that looks at the authority alone. -/
def invalidAuthorityFields (authorityId : Text) (entry : Json) : Bool :=
  let authority : Value := some entry
  let owner := authority.get "authority"
  let outcome := authority.get "outcome"
  !authority.isRecord ||
  !isSafeId authorityId ||
  !owner.isRecord ||
  !(owner.get "namespace_id").is namespaceId ||
  !(owner.get "session_id").is sessionId ||
  !(owner.get "endpoint_incarnation").isNonempty ||
  !safeId (owner.get "gate_id") ||
  !(authority.get "observation").isRecord ||
  !outcome.isRecord ||
  !rt.isTime (authority.get "first_seen_at") ||
  !rt.isTime (authority.get "updated_at") ||
  invalidObservation rt namespaceId sessionId (authority.get "observation") outcome ||
  !(outcome.get "state").namesOneOf ["deferred_link", "pending", "answered", "stale", "uncertain",
    "ownership_unavailable", "ownership_conflict"] ||
  (linksQuestion outcome && (!safeId (outcome.get "turn_id") ||
    !safeId (outcome.get "question_id"))) ||
  ((outcome.get "state").oneOf ["deferred_link"] && !rt.isTime (outcome.get "first_seen_at")) ||
  ((outcome.get "state").namesOneOf
    ["stale", "uncertain", "ownership_unavailable", "ownership_conflict"] &&
    !(outcome.get "reason").isString)

def danglingAuthority (authorityId : Text) (entry : Json) : Bool :=
  let outcome := get entry "outcome"
  linksQuestion outcome &&
    (!hasProperty turns (outcome.get "turn_id").text ||
      match questions.get? (outcome.get "question_id").text with
      | none => true
      | some question =>
        !(get question "authority_id").is authorityId ||
        !(get question "turn_id").strictEq (outcome.get "turn_id"))

def invalidAuthority (authorityId : Text) (entry : Json) : Bool :=
  invalidAuthorityFields rt namespaceId sessionId authorityId entry ||
    danglingAuthority turns questions authorityId entry

def QUESTION_STATUSES : List String := ["pending", "resolving", "answered", "stale", "uncertain"]

def invalidHistoryItem (item : Value) : Bool :=
  !item.isRecord ||
  !rt.isTime (item.get "at") ||
  !(item.get "status").namesOneOf QUESTION_STATUSES ||
  !(item.get "reason").isStringOrNull

def invalidClaim (question : Value) : Bool :=
  if (question.get "status").oneOf ["pending"] then
    !(question.get "claim_fence_epoch").isNull || !(question.get "answer_request_id").isNull
  else if (question.get "status").oneOf ["resolving"] then
    (question.get "claim_fence_epoch").isNull || (question.get "answer_request_id").isNull
  else (question.get "status").oneOf ["answered"] && (question.get "answered_at").isNull

/-- The part of `invalidQuestion` that looks at the question and the session alone. -/
def invalidQuestionFields (session : Json) (questionId : Text) (entry : Json) : Bool :=
  let question : Value := some entry
  !question.isRecord ||
  !(question.get "question_id").is questionId ||
  !isSafeId questionId ||
  !safeId (question.get "authority_id") ||
  !(question.get "session_id").is sessionId ||
  !safeId (question.get "turn_id") ||
  !(question.get "endpoint_incarnation").strictEq
    ((get session "broker").get "endpoint_incarnation") ||
  !(question.get "stage").isString ||
  !(question.get "kind").isString ||
  !(question.get "prompt").isString ||
  !(question.get "status").oneOf QUESTION_STATUSES ||
  !(question.get "binding_plaintext").isString ||
  !isDigest (question.get "binding_sha256").toText ||
  !(question.get "codec").isRecord ||
  (question.get "history").items?.isNone ||
  !rt.isTime (question.get "created_at") ||
  !rt.isTime (question.get "updated_at") ||
  !rt.isTimeOrNull (question.get "answered_at") ||
  !(question.get "binding_sha256").is (rt.digest (question.get "binding_plaintext").text) ||
  (!(question.get "claim_fence_epoch").isNull &&
    !(question.get "claim_fence_epoch").isSafeInteger 1) ||
  (!(question.get "answer_request_id").isNull && !safeId (question.get "answer_request_id")) ||
  ((question.get "history").items?.getD []).any (fun item => invalidHistoryItem rt (some item)) ||
  invalidClaim question

def isResolving (question : Value) : Bool :=
  !(question.get "answer_request_id").isNull && (question.get "status").oneOf ["resolving"]

def danglingQuestion (authorities answers : Table) (entry : Json) : Bool :=
  let question : Value := some entry
  !hasProperty authorities (question.get "authority_id").text ||
  !hasProperty turns (question.get "turn_id").text ||
  (isResolving question && !answers.values.any fun request =>
    (get request "request_id").strictEq (question.get "answer_request_id"))

def invalidQuestion (session : Json) (turns authorities answers : Table) (questionId : Text)
    (entry : Json) : Bool :=
  invalidQuestionFields rt sessionId session questionId entry ||
    danglingQuestion turns authorities answers entry

def isReceipt (turn request : Value) : Bool :=
  (request.get "coordinator_turn_id").strictEq (turn.get "turn_id") &&
  (request.get "phase").oneOf ACCEPTED_PHASES &&
  ((request.get "runtime_receipt").get "accepted").isTrue &&
  ((request.get "runtime_receipt").get "command_id").strictEq
    ((turn.get "delivery").get "runtime_command_id") &&
  ((request.get "runtime_receipt").get "turn_id").strictEq
    ((turn.get "delivery").get "runtime_turn_id")

def receiptFor (prompts : Table) (turn : Value) : Bool :=
  prompts.values.any fun request => isReceipt turn (some request)

def awaitsReceipt (turn : Value) : Bool :=
  (turn.get "status").oneOf ACTIVE_STATUSES &&
    ((turn.get "delivery").get "prompt_acknowledged").isTrue

def invalidPromotion (promotion : Value) : Bool :=
  !promotion.isNull &&
    (!promotion.isRecord || !safeId (promotion.get "from_turn_id") ||
      !safeId (promotion.get "to_turn_id") ||
      (promotion.get "revision").safeInteger?.isNone ||
      !hasProperty turns (promotion.get "from_turn_id").text ||
      !hasProperty turns (promotion.get "to_turn_id").text)

def statusOf (turnId : Value) : Value := get (turns.get? turnId.text) "status"

def invalidQueue (queue : Value) : Bool :=
  !queue.isRecord ||
  invalidIds (fun id => id.isString && (statusOf turns id).oneOf ["queued"])
    (queue.get "ordered_turn_ids") ||
  (!(queue.get "active_turn_id").isNull &&
    (!safeId (queue.get "active_turn_id") ||
      !(statusOf turns (queue.get "active_turn_id")).oneOf ACTIVE_STATUSES)) ||
  invalidPromotion turns (queue.get "selected_promotion")

def invalidSession (session : Value) : Bool :=
  !session.isRecord ||
  !(session.get "namespace_id").is namespaceId ||
  !(session.get "session_id").is sessionId ||
  !(session.get "cwd").isNonempty ||
  !rt.isTime (session.get "created_at") ||
  !rt.isTime (session.get "updated_at") ||
  !(session.get "broker").isRecord ||
  !((session.get "broker").get "sidecar_verifier").isRecord ||
  !isDigest (if (((session.get "broker").get "sidecar_verifier").get "key_id").isNullish then []
    else (((session.get "broker").get "sidecar_verifier").get "key_id").toText) ||
  !(((session.get "broker").get "sidecar_verifier").get "public_key").isString

def PROJECTION_REVISIONS : List String :=
  ["applied_turns_revision", "applied_reports_revision", "applied_session_revision",
    "applied_active_revision", "applied_events_revision", "scheduler_pending_revision",
    "scheduler_applied_revision"]

def invalidProjection (revision : Nat) (projection : Value) : Bool :=
  !projection.isRecord ||
  PROJECTION_REVISIONS.any (fun name => (projection.get name).isSome &&
    !(projection.get name).safeInteger?.any fun value :
      Int => decide (0 ≤ value ∧ value ≤ revision)) ||
  ((projection.get "scheduler_digest").isSome && !(projection.get "scheduler_digest").isNonempty)

variable (tx : SessionTransaction Records)

def invalidHeader : Bool :=
  safeInteger? (some tx.rest.schemaVersion) ≠ some 1 ||
  !isString (some tx.rest.creationIntentDigest) ||
  !isDigest (text (some tx.rest.creationIntentDigest)) ||
  !is (some tx.rest.namespaceId) namespaceId ||
  decide (tx.sessionId ≠ sessionId) ||
  invalidSession rt namespaceId sessionId (some tx.rest.canonical.session) ||
  !namesOneOf (some tx.rest.canonical.desiredSessionState) VALID_STATES ||
  decide (tx.revision < 1 ∨ Value.MAX_SAFE_INTEGER < tx.revision) ||
  (!isNull (some tx.rest.endpoint) &&
    (!isRecord (some tx.rest.endpoint) || !safeId (get tx.rest.endpoint "incarnation") ||
      !rt.isTime (get tx.rest.endpoint "observed_at"))) ||
  invalidProjection tx.revision (some tx.rest.projection) ||
  !isRecord (some tx.rest.recovery) ||
  !rt.isTimeOrNull (get tx.rest.recovery "prompt_watermark_at") ||
  !rt.isTimeOrNull (get tx.rest.recovery "last_repaired_at")

/-- `new Set(values.map(value => value.name)).size === keys.length`. -/
def distinctBy (name : String) (table : Table) : Bool :=
  decide (table.values.map fun entry : Json => get entry name).Nodup

def anyEntry (table : Table) (test : Text → Json → Bool) : Bool :=
  table.entries.any fun entry => test entry.1 entry.2

/-- The records of a transaction pass `assertTransaction`. -/
def assertRecords : Bool :=
  let canonical := tx.rest.canonical
  let requests := tx.rest.requests
  !(invalidHeader rt namespaceId sessionId tx ||
    anyEntry canonical.turns (invalidTurn rt namespaceId sessionId) ||
    anyEntry requests.prompts (invalidPrompt rt canonical.turns) ||
    !distinctBy "request_id" requests.prompts ||
    anyEntry canonical.gateAuthorities
      (invalidAuthority rt namespaceId sessionId canonical.turns canonical.questions) ||
    anyEntry canonical.questions (invalidQuestion rt sessionId canonical.session canonical.turns
      canonical.gateAuthorities requests.answers) ||
    anyEntry requests.answers (invalidAnswer rt canonical.questions) ||
    !distinctBy "request_id" requests.answers ||
    anyEntry requests.operations (invalidOperation rt) ||
    !distinctBy "operation_id" requests.operations ||
    anyEntry canonical.reports (invalidReport rt sessionId canonical.turns) ||
    !distinctBy "operation_id" canonical.reports ||
    invalidQueue canonical.turns (some canonical.queue) ||
    canonical.turns.values.any fun turn =>
      awaitsReceipt (some turn) && !receiptFor requests.prompts (some turn))

end Fields

end Vibrato.Coordinator.Records
