import Vibrato.Json
import Vibrato.Query.RevisionStore

/-! `CursorRegistry`: the cursors that connections hold, each a signed text that pins one revision
until it is consumed, released or expired. -/

namespace Vibrato.Query

open Lib

def CURSOR_TTL_MS : Int := SNAPSHOT_TTL_MS

def MAX_CURSORS_PER_CONNECTION : Nat := 32

def MAX_CURSORS_PER_SESSION : Nat := MAX_PINNED_REVISIONS

structure CursorEnvelope where
  sessionId : Text
  resource : Text
  nonce : Option Text
  revision : Nat
  highWatermark : Option Json
  issuedAt : Option Int
  expiresAt : Option Int
  position : Json
  direction : Text
  pageShape : Json

structure CursorQueryContext where
  sessionId : Text
  resource : Option Text
  resourceId : Option Text
  direction : Text
  pageShape : Json

inductive CursorErrorCode where
  | cursorExpired
  | invalidCursor
  | invalidInput
  | resourceGone
  | snapshotCapacityExceeded

structure CursorError where
  code : CursorErrorCode
  restartQuery : Bool
  message : Option Text

/-- The texts of cursors under the token of the session: an envelope with its MAC, and what a text
with a right MAC and the right versions says. -/
structure CursorFormat where
  canonicalJson : Json → Text
  signCursor : CursorEnvelope → Text
  verifyCursor : Text → Option CursorEnvelope

structure ActiveCursor where
  connectionId : Text
  resourceId : Text
  expiresAt : Int
  deriving DecidableEq

structure CursorRegistry (π : Type) where
  revisions : RevisionStore π
  active : OrderedMap Text ActiveCursor

structure Granting where
  cursor : Text
  record : ActiveCursor
  envelope : CursorEnvelope

namespace CursorRegistry

variable {π : Type} (format : CursorFormat)

def create (now : Int) : CursorRegistry π := ⟨.create now, .empty⟩

def now (s : CursorRegistry π) : Int := s.revisions.now

variable (s : CursorRegistry π)

def release (cursor : Text) : CursorRegistry π :=
  ⟨s.revisions.unpin cursor, s.active.erase cursor⟩

def releaseAll (cursors : List Text) : CursorRegistry π := cursors.foldl release s

def close : CursorRegistry π := s.releaseAll s.active.keys

def expired : List Text :=
  (s.active.entries.filter fun entry => entry.2.expiresAt ≤ s.now).map Prod.fst

def sweep (s : CursorRegistry π) : CursorRegistry π :=
  let s := s.releaseAll s.expired
  { s with revisions := s.revisions.sweep }

variable (connectionId : Text)

def held : List ActiveCursor :=
  s.active.values.filter fun item => item.connectionId = connectionId

def isFull : Bool :=
  decide (MAX_CURSORS_PER_SESSION ≤ s.active.size) ||
    decide (MAX_CURSORS_PER_CONNECTION ≤ (s.held connectionId).length)

def minted (envelope : CursorEnvelope) : CursorEnvelope :=
  { envelope with issuedAt := some s.now, expiresAt := some (s.now + CURSOR_TTL_MS) }

def errorOf : RevisionStoreError → CursorError
  | .resourceGone _ => ⟨.resourceGone, false, none⟩
  | .snapshotCapacityExceeded _ => ⟨.snapshotCapacityExceeded, false, none⟩

/-- `grant` up to its `await`. -/
def startGrant (envelope : CursorEnvelope)
    (resourceKind resourceId : Text) : CursorRegistry π × Except CursorError Granting :=
  let s := s.sweep
  if s.isFull connectionId then (s, .error ⟨.snapshotCapacityExceeded, false, none⟩)
  else
    let envelope := s.minted envelope
    let cursor := format.signCursor envelope
    match s.revisions.pin cursor (resourceKey resourceKind resourceId) envelope.revision with
    | .error error => (s, .error (errorOf error))
    | .ok revisions =>
      ({ s with revisions }, .ok ⟨cursor, ⟨connectionId, resourceId, s.now + CURSOR_TTL_MS⟩,
        envelope⟩)

/-- `grant` after its `await`. -/
def finishGrant (granting : Granting) : CursorRegistry π :=
  { s with active := s.active.set granting.cursor granting.record }

def fits (envelope : CursorEnvelope) (expected : CursorQueryContext) : Bool :=
  decide (envelope.sessionId = expected.sessionId) &&
    expected.resource.all (fun resource => envelope.resource = resource) &&
    decide (envelope.direction = expected.direction) &&
    decide (format.canonicalJson envelope.pageShape = format.canonicalJson expected.pageShape)

def mismatch : CursorError := ⟨.invalidInput, false, some "cursor does not match query".toList⟩

def exchangedEnvelope (cursor : Text) (expected : CursorQueryContext) (nonce : Text) :
    Except CursorError CursorEnvelope :=
  match format.verifyCursor cursor with
  | none => .error ⟨.invalidCursor, false, none⟩
  | some envelope =>
    if envelope.expiresAt.all (· ≤ s.now) then .error ⟨.cursorExpired, true, none⟩
    else if !fits format envelope expected then .error mismatch
    else .ok { envelope with nonce := some nonce, issuedAt := none, expiresAt := none }

/-- `exchange` up to the `await` of its grant.  `nonce` is the UUID that it draws. -/
def startExchange (cursor connectionId : Text) (expected : CursorQueryContext)
    (resourceKind resourceId nonce : Text) : CursorRegistry π × Except CursorError Granting :=
  match s.exchangedEnvelope format cursor expected nonce with
  | .error error => (s, .error error)
  | .ok envelope => s.startGrant format connectionId envelope resourceKind resourceId

def isExpired (envelope : CursorEnvelope) (active : Option ActiveCursor) (connectionId : Text) :
    Bool :=
  match active with
  | none => true
  | some active =>
    decide (active.connectionId ≠ connectionId) || decide (active.expiresAt ≤ s.now) ||
      envelope.expiresAt.any (· ≤ s.now)

def consume (cursor connectionId : Text) (expected : CursorQueryContext) :
    CursorRegistry π × Except CursorError CursorEnvelope :=
  match format.verifyCursor cursor with
  | none => (s, .error ⟨.invalidCursor, false, none⟩)
  | some envelope =>
    let active := s.active.get? cursor
    if s.isExpired envelope active connectionId then (s.release cursor,
      .error ⟨.cursorExpired, true, none⟩)
    else if !fits format envelope expected ||
        !expected.resourceId.all (fun resourceId => active.any fun active => active.resourceId =
          resourceId) then
      (s, .error mismatch)
    else (s.release cursor, .ok envelope)

end CursorRegistry

end Vibrato.Query
