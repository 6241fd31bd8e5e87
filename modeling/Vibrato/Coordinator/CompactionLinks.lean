import Vibrato.Coordinator.Compaction
import Vibrato.Coordinator.Transactions

namespace Vibrato.Coordinator.Records

open Lib List OrderedMap Value Except

section Validity

variable (rt : Runtime) (namespaceId sessionId : Text)

/-- The checks that concern one entry each, or the ids of one table. -/
structure WellFormed (tx : SessionTransaction Records) : Prop where
  header : invalidHeader rt namespaceId sessionId tx = false
  turns : ∀ id turn, tx.rest.canonical.turns.get? id = some turn →
    invalidTurn rt namespaceId sessionId id turn = false
  prompts : ∀ id request, tx.rest.requests.prompts.get? id = some request →
    invalidPromptFields rt id request = false
  promptIds : distinctBy "request_id" tx.rest.requests.prompts = true
  authorities : ∀ id authority, tx.rest.canonical.gateAuthorities.get? id = some authority →
    invalidAuthorityFields rt namespaceId sessionId id authority = false
  questions : ∀ id question, tx.rest.canonical.questions.get? id = some question →
    invalidQuestionFields rt sessionId tx.rest.canonical.session id question = false
  answers : ∀ id request, tx.rest.requests.answers.get? id = some request →
    invalidAnswerFields rt id request = false
  answerIds : distinctBy "request_id" tx.rest.requests.answers = true
  operations : ∀ id operation, tx.rest.requests.operations.get? id = some operation →
    invalidOperation rt id operation = false
  operationIds : distinctBy "operation_id" tx.rest.requests.operations = true
  reports : ∀ id report, tx.rest.canonical.reports.get? id = some report →
    invalidReportFields rt sessionId id report = false
  reportIds : distinctBy "operation_id" tx.rest.canonical.reports = true

structure Linked (canonical : Canonical) (requests : Requests) : Prop where
  prompts : ∀ id request, requests.prompts.get? id = some request →
    danglingPrompt canonical.turns request = false
  authorities : ∀ id authority, canonical.gateAuthorities.get? id = some authority →
    danglingAuthority canonical.turns canonical.questions id authority = false
  questions : ∀ id question, canonical.questions.get? id = some question →
    danglingQuestion canonical.turns canonical.gateAuthorities requests.answers question = false
  answers : ∀ id request, requests.answers.get? id = some request →
    danglingAnswer canonical.questions request = false
  reports : ∀ id report, canonical.reports.get? id = some report →
    danglingReport canonical.turns report = false
  queue : invalidQueue canonical.turns (some canonical.queue) = false
  receipts : ∀ id turn, canonical.turns.get? id = some turn → awaitsReceipt (some turn) = true →
    receiptFor requests.prompts (some turn) = true

theorem anyEntry_eq_false {table : Table} {test : Text → Json → Bool} :
    anyEntry table test = false ↔ ∀ id entry, table.get? id = some entry →
      test id entry = false := by
  rw [anyEntry, any_eq_false]
  constructor
  · intro h id entry hentry
    simpa using h (id, entry) (get?_eq_some.mp hentry)
  · intro h entry hentry
    simpa using h entry.1 entry.2 (get?_eq_some.mpr hentry)

theorem unreceipted_eq_false {turns prompts : Table} :
    (turns.values.any fun turn => awaitsReceipt (some turn) &&
      !receiptFor prompts (some turn)) = false ↔
      ∀ id turn, turns.get? id = some turn → awaitsReceipt (some turn) = true →
        receiptFor prompts (some turn) = true := by
  rw [← Bool.not_eq_true, any_values]
  simp

theorem assertRecords_iff {tx : SessionTransaction Records} :
    assertRecords rt namespaceId sessionId tx = true ↔
      WellFormed rt namespaceId sessionId tx ∧ Linked tx.rest.canonical tx.rest.requests := by
  unfold assertRecords
  simp only [Bool.not_eq_true', Bool.not_eq_false', Bool.or_eq_false_iff, anyEntry_eq_false,
    unreceipted_eq_false, invalidPrompt, invalidAuthority, invalidQuestion, invalidAnswer,
    invalidReport, imp_and, forall_and]
  constructor
  · rintro ⟨⟨⟨⟨⟨⟨⟨⟨⟨⟨⟨⟨⟨header, turns⟩, prompts, promptLinks⟩, promptIds⟩, authorities,
      authorityLinks⟩,
      questions, questionLinks⟩, answers, answerLinks⟩, answerIds⟩, operations⟩, operationIds⟩,
        reports,
      reportLinks⟩, reportIds⟩, queue⟩, receipts⟩
    exact ⟨⟨header, turns, prompts, promptIds, authorities, questions, answers, answerIds,
      operations,
      operationIds, reports, reportIds⟩, ⟨promptLinks, authorityLinks, questionLinks, answerLinks,
      reportLinks, queue, receipts⟩⟩
  · rintro ⟨fields, links⟩
    exact ⟨⟨⟨⟨⟨⟨⟨⟨⟨⟨⟨⟨⟨fields.header, fields.turns⟩, fields.prompts, links.prompts⟩,
      fields.promptIds⟩,
      fields.authorities, links.authorities⟩, fields.questions, links.questions⟩, fields.answers,
      links.answers⟩, fields.answerIds⟩, fields.operations⟩, fields.operationIds⟩, fields.reports,
      links.reports⟩, fields.reportIds⟩, links.queue⟩, links.receipts⟩

end Validity

theorem distinctBy_retain {name : String} {table : Table} (h : distinctBy name table = true)
    (p : Text → Json → Bool) : distinctBy name (table.retain p) = true := by
  rw [distinctBy, decide_eq_true_eq] at h ⊢
  exact h.sublist ((values_retain_sublist table p).map _)

theorem get?_of_retain {table : Table} {p : Text → Json → Bool} {id : Text} {entry : Json}
    (h : (table.retain p).get? id = some entry) : table.get? id = some entry :=
  (get?_retain_eq_some.mp h).1

section Kept

variable {rt : Runtime} {namespaceId sessionId : Text} {tx : SessionTransaction Records}

theorem WellFormed.expireRequests (h : WellFormed rt namespaceId sessionId tx) (now : Int) :
    WellFormed rt namespaceId sessionId (expireRequests rt now tx) where
  header := h.header
  turns := h.turns
  prompts id request hrequest := h.prompts id request (get?_of_retain hrequest)
  promptIds := distinctBy_retain h.promptIds _
  authorities := h.authorities
  questions := h.questions
  answers id request hrequest := h.answers id request (get?_of_retain hrequest)
  answerIds := distinctBy_retain h.answerIds _
  operations id operation hoperation := h.operations id operation (get?_of_retain hoperation)
  operationIds := distinctBy_retain h.operationIds _
  reports := h.reports
  reportIds := h.reportIds

theorem WellFormed.deleteRecords (h : WellFormed rt namespaceId sessionId tx)
    (turnGone questionGone : Text → Bool) (ownerGone : Value → Bool) :
    WellFormed rt namespaceId sessionId (deleteRecords turnGone questionGone ownerGone tx) where
  header := h.header
  turns id turn hturn := h.turns id turn (get?_of_retain hturn)
  prompts id request hrequest := h.prompts id request (get?_of_retain hrequest)
  promptIds := distinctBy_retain h.promptIds _
  authorities id authority hauthority := h.authorities id authority (get?_of_retain hauthority)
  questions id question hquestion := h.questions id question (get?_of_retain hquestion)
  answers id request hrequest := h.answers id request (get?_of_retain hrequest)
  answerIds := distinctBy_retain h.answerIds _
  operations id operation hoperation := h.operations id operation (get?_of_retain hoperation)
  operationIds := distinctBy_retain h.operationIds _
  reports id report hreport := h.reports id report (get?_of_retain hreport)
  reportIds := distinctBy_retain h.reportIds _

end Kept

def Owned (Gone : Text → Prop) (owner : Value) : Prop :=
  ∃ turnId, Gone turnId ∧ owner = some (.str turnId)

def Listed (turns : Table) (Gone : Text → Prop) (questionId : Text) : Prop :=
  ∃ turnId, Gone turnId ∧ questionId ∈ questionIds (turns.get? turnId)

/-- What has to hold between the requests that expire, the turns that are gone, and the rest:

* a turn that needs a receipt has one that does not expire;
* a turn that is gone, or another one with it, lists each of its questions;
* a question that no such turn lists has its authority from a turn that stays, and if it is being
  resolved, then by an answer that does not expire and belongs to a turn that stays;
* an authority with a question that such a turn lists, and an answer to it that does not expire,
  belong to a turn that is gone.

A turn or an authority with a name that every object inherits is never missing. -/
structure KeepsLinks (rt : Runtime) (now : Int) (canonical : Canonical) (requests : Requests)
    (Gone : Text → Prop) : Prop where
  receipts : ∀ id turn, canonical.turns.get? id = some turn → awaitsReceipt (some turn) = true →
    ∃ key request, requests.prompts.get? key = some request ∧
      isReceipt (some turn) (some request) = true ∧ expired rt now canonical key request = false
  listed : ∀ id question, canonical.questions.get? id = some question →
    Gone (get question "turn_id").text → (get question "turn_id").text ∉ inheritedNames →
    Listed canonical.turns Gone id
  authorities : ∀ id question authority, canonical.questions.get? id = some question →
    ¬Listed canonical.turns Gone id → (get question "authority_id").text ∉ inheritedNames →
    canonical.gateAuthorities.get? (get question "authority_id").text = some authority →
    ¬Owned Gone ((get authority "outcome").get "turn_id")
  resolving : ∀ id question, canonical.questions.get? id = some question →
    ¬Listed canonical.turns Gone id → isResolving (some question) = true →
    ∃ key request, requests.answers.get? key = some request ∧
      (get request "request_id").strictEq (get question "answer_request_id") = true ∧
      expired rt now canonical key request = false ∧ ¬Owned Gone (get request "turn_id")
  linked : ∀ id authority, canonical.gateAuthorities.get? id = some authority →
    linksQuestion (get authority "outcome") = true →
    Listed canonical.turns Gone ((get authority "outcome").get "question_id").text →
    Owned Gone ((get authority "outcome").get "turn_id")
  answered : ∀ key request, requests.answers.get? key = some request →
    Listed canonical.turns Gone (get request "question_id").text →
    expired rt now canonical key request = true ∨ Owned Gone (get request "turn_id")

variable {gone : List Text}

theorem ownedBy_eq_false {owner : Value} :
    ownedBy gone owner = false ↔ ¬Owned (· ∈ gone) owner := by
  simp [ownedBy, Owned]

theorem listedBy_eq_false {turns : Table} {questionId : Text} :
    listedBy turns gone questionId = false ↔ ¬Listed turns (· ∈ gone) questionId := by
  simp [listedBy, Listed]

section Lookup

variable {rt : Runtime} {now : Int} {tx : SessionTransaction Records} {gone : List Text} {id : Text}
    {entry : Json}

theorem get?_turns :
    (withoutTurns gone (expireRequests rt now tx)).rest.canonical.turns.get? id = some entry ↔
      tx.rest.canonical.turns.get? id = some entry ∧ id ∉ gone := by
  show (retain _ _).get? id = some entry ↔ _
  rw [get?_retain_eq_some]
  simp [expireRequests]

theorem get?_questions :
    (withoutTurns gone (expireRequests rt now tx)).rest.canonical.questions.get? id = some entry ↔
      tx.rest.canonical.questions.get? id = some entry ∧
        ¬Listed tx.rest.canonical.turns (· ∈ gone) id := by
  show (retain _ _).get? id = some entry ↔ _
  rw [get?_retain_eq_some, Bool.not_eq_true', listedBy_eq_false]
  rfl

theorem get?_authorities :
    (withoutTurns gone (expireRequests rt now tx)).rest.canonical.gateAuthorities.get? id =
      some entry ↔
      tx.rest.canonical.gateAuthorities.get? id = some entry ∧
        ¬Owned (· ∈ gone) ((get entry "outcome").get "turn_id") := by
  show (retain _ _).get? id = some entry ↔ _
  rw [get?_retain_eq_some, Bool.not_eq_true', ownedBy_eq_false]
  rfl

theorem get?_reports :
    (withoutTurns gone (expireRequests rt now tx)).rest.canonical.reports.get? id = some entry ↔
      tx.rest.canonical.reports.get? id = some entry ∧ ¬Owned (· ∈ gone) (get entry "turn_id") := by
  show (retain _ _).get? id = some entry ↔ _
  rw [get?_retain_eq_some, Bool.not_eq_true', ownedBy_eq_false]
  rfl

theorem get?_prompts :
    (withoutTurns gone (expireRequests rt now tx)).rest.requests.prompts.get? id = some entry ↔
      (tx.rest.requests.prompts.get? id = some entry ∧
        expired rt now tx.rest.canonical id entry = false) ∧
        ¬Owned (· ∈ gone) (get entry "coordinator_turn_id") := by
  show (retain (expireGroup rt now tx.rest.canonical _) _).get? id = some entry ↔ _
  rw [get?_retain_eq_some, expireGroup, get?_retain_eq_some, Bool.not_eq_true', Bool.not_eq_true',
    ownedBy_eq_false]

theorem get?_answers :
    (withoutTurns gone (expireRequests rt now tx)).rest.requests.answers.get? id = some entry ↔
      (tx.rest.requests.answers.get? id = some entry ∧
        expired rt now tx.rest.canonical id entry = false) ∧
        ¬Owned (· ∈ gone) (get entry "turn_id") := by
  show (retain (expireGroup rt now tx.rest.canonical _) _).get? id = some entry ↔ _
  rw [get?_retain_eq_some, expireGroup, get?_retain_eq_some, Bool.not_eq_true', Bool.not_eq_true',
    ownedBy_eq_false]

theorem hasProperty_eq_true {table : Table} :
    hasProperty table id = true ↔ (∃ entry, table.get? id = some entry) ∨ id ∈ inheritedNames := by
  rw [hasProperty, Bool.or_eq_true, decide_eq_true_eq, has_iff]

theorem hasProperty_turns :
    hasProperty (withoutTurns gone (expireRequests rt now tx)).rest.canonical.turns id = true ↔
      hasProperty tx.rest.canonical.turns id = true ∧ (id ∉ gone ∨ id ∈ inheritedNames) := by
  simp only [hasProperty_eq_true, get?_turns, exists_and_right, and_or_right]

end Lookup

section References

variable {rt : Runtime} {namespaceId sessionId : Text} {tx : SessionTransaction Records}
  (h : WellFormed rt namespaceId sessionId tx) {id : Text} {entry : Json}
include h

theorem WellFormed.turn_id (hentry : tx.rest.canonical.turns.get? id = some entry) :
    get entry "turn_id" = some (.str id) := by
  have hfields := h.turns id entry hentry
  simp only [invalidTurn, Bool.or_eq_false_iff] at hfields
  have hid : (!(get entry "turn_id").is id) = false :=
    hfields.1.1.1.1.1.1.1.1.1.1.1.1.1.1.1.1.1.1.1.2
  exact is_iff.mp (by simpa using hid)

theorem WellFormed.coordinator_turn_id (hentry : tx.rest.requests.prompts.get? id = some entry)
    (hsome : (get entry "coordinator_turn_id").isSome = true) :
    get entry "coordinator_turn_id" =
      some (.str (get entry "coordinator_turn_id").text) := by
  have hfields := h.prompts id entry hentry
  simp only [invalidPromptFields, Bool.or_eq_false_iff] at hfields
  have hid : ((get entry "coordinator_turn_id").isSome &&
      !safeId (get entry "coordinator_turn_id")) = false := hfields.1.1.1.1.2
  exact eq_of_safeId (by simpa [hsome] using hid)

theorem WellFormed.report_turn_id (hentry : tx.rest.canonical.reports.get? id = some entry)
    (hturn : (get entry "turn_id").is [] = false) :
    get entry "turn_id" = some (.str (get entry "turn_id").text) := by
  have hfields := h.reports id entry hentry
  simp only [invalidReportFields, Bool.or_eq_false_iff] at hfields
  have hid : (!(get entry "turn_id").is [] && !safeId (get entry "turn_id")) = false :=
    hfields.1.1.1.1.1.1.2
  exact eq_of_safeId (by simpa [hturn] using hid)

theorem WellFormed.outcome_turn_id (hentry : tx.rest.canonical.gateAuthorities.get? id = some entry)
    (hlinks : linksQuestion (get entry "outcome") = true) :
    (get entry "outcome").get "turn_id" =
      some (.str ((get entry "outcome").get "turn_id").text) := by
  have hfields := h.authorities id entry hentry
  simp only [invalidAuthorityFields, Bool.or_eq_false_iff] at hfields
  have hid : (linksQuestion (get entry "outcome") &&
      (!safeId ((get entry "outcome").get "turn_id") ||
        !safeId ((get entry "outcome").get "question_id"))) = false := hfields.1.1.2
  simp only [hlinks, Bool.true_and, Bool.or_eq_false_iff, Bool.not_eq_false'] at hid
  exact eq_of_safeId hid.1

end References

theorem not_terminal {status : Value} {options : List String}
    (hdisjoint : ∀ option ∈ options, option ∉ TERMINAL_STATUSES) (h : status.oneOf options = true) :
    status.oneOf TERMINAL_STATUSES = false := by
  rw [← Bool.not_eq_true]
  intro hterminal
  obtain ⟨option, hoption, rfl⟩ := oneOf_iff.mp h
  obtain ⟨other, hother, heq⟩ := oneOf_iff.mp hterminal
  have hsame : option = other := by
    rw [Option.some.injEq, Json.str.injEq] at heq
    exact String.toList_inj.mp heq
  exact hdisjoint option hoption (hsame ▸ hother)

section Stays

variable {rt : Runtime} {now : Int} {namespaceId sessionId : Text} {tx : SessionTransaction Records}
  {gone : List Text} {id : Text} {entry : Json}

theorem danglingPrompt_of_kept (hfields : WellFormed rt namespaceId sessionId tx)
    (hlinks : Linked tx.rest.canonical tx.rest.requests)
    (hentry : (withoutTurns gone (expireRequests rt now tx)).rest.requests.prompts.get? id =
      some entry) :
    danglingPrompt (withoutTurns gone (expireRequests rt now tx)).rest.canonical.turns entry =
      false := by
  obtain ⟨⟨hprompt, -⟩, howned⟩ := get?_prompts.mp hentry
  have hlink := hlinks.prompts id entry hprompt
  unfold danglingPrompt at hlink ⊢
  by_cases hsome : (get entry "coordinator_turn_id").isSome = true
  · rw [hsome, Bool.true_and, Bool.not_eq_false'] at hlink ⊢
    refine hasProperty_turns.mpr ⟨hlink, .inl fun hgone => howned ⟨_, hgone, ?_⟩⟩
    exact hfields.coordinator_turn_id hprompt hsome
  · simp [hsome]

theorem danglingReport_of_kept (hfields : WellFormed rt namespaceId sessionId tx)
    (hlinks : Linked tx.rest.canonical tx.rest.requests)
    (hentry : (withoutTurns gone (expireRequests rt now tx)).rest.canonical.reports.get? id =
      some entry) :
    danglingReport (withoutTurns gone (expireRequests rt now tx)).rest.canonical.turns entry =
      false := by
  obtain ⟨hreport, howned⟩ := get?_reports.mp hentry
  have hlink := hlinks.reports id entry hreport
  unfold danglingReport at hlink ⊢
  by_cases hturn : (get entry "turn_id").is [] = true
  · simp [hturn]
  · have hturn' : (get entry "turn_id").is [] = false := Bool.eq_false_iff.mpr hturn
    rw [hturn', Bool.not_false, Bool.true_and, Bool.not_eq_false'] at hlink ⊢
    refine hasProperty_turns.mpr ⟨hlink, .inl fun hgone => howned ⟨_, hgone, ?_⟩⟩
    exact hfields.report_turn_id hreport hturn'

section Terminal

variable (hterminal : ∀ turnId ∈ gone,
  (statusOf tx.rest.canonical.turns (some (.str turnId))).oneOf TERMINAL_STATUSES = true)
    {options : List String}
include hterminal

theorem not_mem_of_status {turnId : Value}
    (hdisjoint : ∀ option ∈ options, option ∉ TERMINAL_STATUSES)
    (h : (statusOf tx.rest.canonical.turns turnId).oneOf options = true) : turnId.text ∉ gone := by
  intro hgone
  have hnot := not_terminal hdisjoint h
  rw [show statusOf tx.rest.canonical.turns turnId =
    statusOf tx.rest.canonical.turns (some (.str turnId.text)) from rfl, hterminal _ hgone] at hnot
  cases hnot

theorem statusOf_of_kept {turnId : Value}
    (hdisjoint : ∀ option ∈ options, option ∉ TERMINAL_STATUSES)
    (h : (statusOf tx.rest.canonical.turns turnId).oneOf options = true) :
    (statusOf (withoutTurns gone (expireRequests rt now tx)).rest.canonical.turns turnId).oneOf
      options = true := by
  unfold statusOf
  rw [get?_turns_withoutTurns (not_mem_of_status hterminal hdisjoint h)]
  exact h

theorem invalidQueue_of_kept (hlinks : Linked tx.rest.canonical tx.rest.requests)
    (hpromotion : ∀ turnId ∈ gone, isPromotion tx.rest.canonical turnId = false) :
    invalidQueue (withoutTurns gone (expireRequests rt now tx)).rest.canonical.turns
      (some tx.rest.canonical.queue) = false := by
  have hqueue := hlinks.queue
  simp only [invalidQueue, Bool.or_eq_false_iff] at hqueue ⊢
  obtain ⟨⟨⟨hrecord, hordered⟩, hactive⟩, hselected⟩ := hqueue
  refine ⟨⟨⟨hrecord, ?_⟩, ?_⟩, ?_⟩
  · unfold invalidIds at hordered ⊢
    split
    · next hnone => rw [hnone] at hordered; exact hordered
    · next items hitems =>
      rw [hitems] at hordered
      simp only [Bool.or_eq_false_iff, any_eq_false, Bool.not_eq_true, Bool.not_eq_false',
        Bool.and_eq_true] at hordered ⊢
      refine ⟨hordered.1, fun item hitem => ⟨(hordered.2 item hitem).1, ?_⟩⟩
      exact statusOf_of_kept hterminal (by decide) (hordered.2 item hitem).2
  · by_cases hnull : (get tx.rest.canonical.queue "active_turn_id").isNull = true
    · simp [hnull]
    · simp only [hnull, Bool.not_false, Bool.true_and, Bool.or_eq_false_iff,
        Bool.not_eq_false'] at hactive ⊢
      exact ⟨hactive.1, statusOf_of_kept hterminal (by decide) hactive.2⟩
  · unfold invalidPromotion at hselected ⊢
    by_cases hnull : (get tx.rest.canonical.queue "selected_promotion").isNull = true
    · simp [hnull]
    · simp only [hnull, Bool.not_false, Bool.true_and, Bool.or_eq_false_iff,
        Bool.not_eq_false'] at hselected ⊢
      obtain ⟨⟨⟨⟨⟨hrecord, hfrom⟩, hto⟩, hrevision⟩, hfromTurn⟩, htoTurn⟩ := hselected
      have hkept : ∀ turnId, isPromotion tx.rest.canonical turnId = true → turnId ∉ gone := by
        intro turnId hends hgone
        rw [hpromotion turnId hgone] at hends
        cases hends
      refine ⟨⟨⟨⟨⟨hrecord, hfrom⟩, hto⟩, hrevision⟩, ?_⟩, ?_⟩
      · refine hasProperty_turns.mpr ⟨hfromTurn, .inl (hkept _ ?_)⟩
        rw [isPromotion, Bool.or_eq_true, is_iff]
        exact .inl (eq_of_safeId hfrom)
      · refine hasProperty_turns.mpr ⟨htoTurn, .inl (hkept _ ?_)⟩
        rw [isPromotion, Bool.or_eq_true, is_iff, is_iff]
        exact .inr (eq_of_safeId hto)

end Terminal

end Stays

section Dangling

variable {turns authorities questions answers : Table} {id : Text} {entry : Json}

theorem danglingQuestion_eq_false :
    danglingQuestion turns authorities answers entry = false ↔
      hasProperty authorities (get entry "authority_id").text = true ∧
      hasProperty turns (get entry "turn_id").text = true ∧
      (isResolving (some entry) = true → ∃ key request, answers.get? key = some request ∧
        (get request "request_id").strictEq (get entry "answer_request_id") = true) := by
  unfold danglingQuestion
  rw [Bool.or_eq_false_iff, Bool.or_eq_false_iff, Bool.not_eq_false', Bool.not_eq_false', and_assoc,
    ← any_values]
  refine and_congr_right fun _ => and_congr_right fun _ => ?_
  rw [Bool.and_eq_false_imp]
  rw [Bool.not_eq_false']

theorem danglingAuthority_eq_false :
    danglingAuthority turns questions id entry = false ↔
      (linksQuestion (get entry "outcome") = true →
        hasProperty turns ((get entry "outcome").get "turn_id").text = true ∧
        ∃ question, questions.get? ((get entry "outcome").get "question_id").text =
            some question ∧
          (get question "authority_id").is id = true ∧
          (get question "turn_id").strictEq ((get entry "outcome").get "turn_id") = true) := by
  unfold danglingAuthority
  rw [Bool.and_eq_false_imp]
  refine forall_congr' fun _ => ?_
  rw [Bool.or_eq_false_iff, Bool.not_eq_false']
  refine and_congr_right fun _ => ?_
  split
  · next hnone => simp [hnone]
  · next question hquestion =>
    rw [Bool.or_eq_false_iff, Bool.not_eq_false', Bool.not_eq_false', hquestion]
    constructor
    · exact fun h => ⟨question, rfl, h⟩
    · rintro ⟨_, ⟨⟩, h⟩
      exact h

theorem danglingAnswer_eq_false :
    danglingAnswer questions entry = false ↔
      ∃ question, questions.get? (get entry "question_id").text = some question ∧
        disagrees (some question) (some entry) = false := by
  unfold danglingAnswer
  split
  · next hnone => simp [hnone]
  · next question hquestion =>
    rw [hquestion]
    constructor
    · exact fun h => ⟨question, rfl, h⟩
    · rintro ⟨_, ⟨⟩, h⟩
      exact h

end Dangling

section Links

variable {rt : Runtime} {now : Int} {namespaceId sessionId : Text} {tx : SessionTransaction Records}
  {gone : List Text}

theorem keepsLinks_of_linked
    (hterminal : ∀ turnId ∈ gone,
      (statusOf tx.rest.canonical.turns (some (.str turnId))).oneOf TERMINAL_STATUSES = true)
    (h : Linked (withoutTurns gone (expireRequests rt now tx)).rest.canonical
      (withoutTurns gone (expireRequests rt now tx)).rest.requests) :
    KeepsLinks rt now tx.rest.canonical tx.rest.requests (· ∈ gone) where
  receipts id turn hturn hawaits := by
    have hkept : id ∉ gone := by
      have hactive : (get turn "status").oneOf ACTIVE_STATUSES = true :=
        (Bool.and_eq_true_iff.mp hawaits).1
      rw [show get turn "status" = statusOf tx.rest.canonical.turns (some (.str id)) by
        rw [statusOf, show text (some (.str id)) = id from rfl, hturn]] at hactive
      exact not_mem_of_status hterminal (by decide) hactive
    have hreceipt := h.receipts id turn (get?_turns.mpr ⟨hturn, hkept⟩) hawaits
    obtain ⟨key, request, hrequest, hmatch⟩ := any_values.mp hreceipt
    obtain ⟨⟨hprompt, hfresh⟩, -⟩ := get?_prompts.mp hrequest
    exact ⟨key, request, hprompt, hmatch, hfresh⟩
  listed id question hquestion hgone hown := by
    by_contra hlisted
    have hlink := h.questions id question (get?_questions.mpr ⟨hquestion, hlisted⟩)
    exact (hasProperty_turns.mp (danglingQuestion_eq_false.mp hlink).2.1).2.elim (· hgone) hown
  authorities id question authority hquestion hlisted hown hauthority := by
    have hlink := h.questions id question (get?_questions.mpr ⟨hquestion, hlisted⟩)
    obtain ⟨kept, hkept⟩ :=
      (hasProperty_eq_true.mp (danglingQuestion_eq_false.mp hlink).1).resolve_right hown
    obtain ⟨hsame, howned⟩ := get?_authorities.mp hkept
    rw [hauthority] at hsame
    rwa [hsame]
  resolving id question hquestion hlisted hresolving := by
    have hlink := h.questions id question (get?_questions.mpr ⟨hquestion, hlisted⟩)
    obtain ⟨key, request, hrequest, hmatch⟩ := (danglingQuestion_eq_false.mp hlink).2.2 hresolving
    obtain ⟨⟨hanswer, hfresh⟩, howned⟩ := get?_answers.mp hrequest
    exact ⟨key, request, hanswer, hmatch, hfresh, howned⟩
  linked id authority hauthority hlinks hlisted := by
    by_contra howned
    have hlink := h.authorities id authority (get?_authorities.mpr ⟨hauthority, howned⟩)
    obtain ⟨-, question, hquestion, -⟩ := danglingAuthority_eq_false.mp hlink hlinks
    exact (get?_questions.mp hquestion).2 hlisted
  answered key request hrequest hlisted := by
    by_contra hnot
    rw [not_or, Bool.not_eq_true] at hnot
    have hlink := h.answers key request (get?_answers.mpr ⟨⟨hrequest, hnot.1⟩, hnot.2⟩)
    obtain ⟨question, hquestion, -⟩ := danglingAnswer_eq_false.mp hlink
    exact (get?_questions.mp hquestion).2 hlisted

theorem linked_of_keepsLinks (hfields : WellFormed rt namespaceId sessionId tx)
    (hlinks : Linked tx.rest.canonical tx.rest.requests)
    (hterminal : ∀ turnId ∈ gone,
      (statusOf tx.rest.canonical.turns (some (.str turnId))).oneOf TERMINAL_STATUSES = true)
    (hpromotion : ∀ turnId ∈ gone, isPromotion tx.rest.canonical turnId = false)
    (h : KeepsLinks rt now tx.rest.canonical tx.rest.requests (· ∈ gone)) :
    Linked (withoutTurns gone (expireRequests rt now tx)).rest.canonical
      (withoutTurns gone (expireRequests rt now tx)).rest.requests where
  prompts id request hrequest := danglingPrompt_of_kept hfields hlinks hrequest
  reports id report hreport := danglingReport_of_kept hfields hlinks hreport
  queue := invalidQueue_of_kept hterminal hlinks hpromotion
  authorities id authority hauthority := by
    obtain ⟨hbefore, howned⟩ := get?_authorities.mp hauthority
    rw [danglingAuthority_eq_false]
    intro hopen
    obtain ⟨hturn, question, hquestion, hagrees⟩ :=
      danglingAuthority_eq_false.mp (hlinks.authorities id authority hbefore) hopen
    refine ⟨hasProperty_turns.mpr ⟨hturn, .inl fun hgone => howned ⟨_, hgone, ?_⟩⟩, question, ?_,
      hagrees⟩
    · exact hfields.outcome_turn_id hbefore hopen
    · exact get?_questions.mpr ⟨hquestion,
        fun hlisted => howned (h.linked id authority hbefore hopen hlisted)⟩
  questions id question hquestion := by
    obtain ⟨hbefore, hlisted⟩ := get?_questions.mp hquestion
    obtain ⟨hauthority, hturn, -⟩ :=
      danglingQuestion_eq_false.mp (hlinks.questions id question hbefore)
    refine danglingQuestion_eq_false.mpr ⟨?_, ?_, fun hresolving => ?_⟩
    · by_cases hown : (get question "authority_id").text ∈ inheritedNames
      · exact hasProperty_eq_true.mpr (.inr hown)
      · obtain ⟨authority, hauthority⟩ := (hasProperty_eq_true.mp hauthority).resolve_right hown
        refine hasProperty_eq_true.mpr (.inl ⟨authority, get?_authorities.mpr ⟨hauthority, ?_⟩⟩)
        exact h.authorities id question authority hbefore hlisted hown hauthority
    · refine hasProperty_turns.mpr ⟨hturn, or_iff_not_imp_right.mpr fun hown hgone => ?_⟩
      exact hlisted (h.listed id question hbefore hgone hown)
    · obtain ⟨key, request, hrequest, hmatch, hfresh, howned⟩ :=
        h.resolving id question hbefore hlisted hresolving
      exact ⟨key, request, get?_answers.mpr ⟨⟨hrequest, hfresh⟩, howned⟩, hmatch⟩
  answers key request hrequest := by
    obtain ⟨⟨hbefore, hfresh⟩, howned⟩ := get?_answers.mp hrequest
    obtain ⟨question, hquestion, hagrees⟩ :=
      danglingAnswer_eq_false.mp (hlinks.answers key request hbefore)
    refine danglingAnswer_eq_false.mpr ⟨question, get?_questions.mpr ⟨hquestion, ?_⟩, hagrees⟩
    intro hlisted
    rcases h.answered key request hbefore hlisted with hexpired | howner
    · rw [hfresh] at hexpired
      cases hexpired
    · exact howned howner
  receipts id turn hturn hawaits := by
    obtain ⟨hbefore, hkept⟩ := get?_turns.mp hturn
    obtain ⟨key, request, hrequest, hmatch, hfresh⟩ := h.receipts id turn hbefore hawaits
    refine any_values.mpr ⟨key, request, get?_prompts.mpr ⟨⟨hrequest, hfresh⟩, ?_⟩, hmatch⟩
    rintro ⟨turnId, hgone, howner⟩
    -- The receipt names the turn that it is for.
    simp only [isReceipt, Bool.and_eq_true] at hmatch
    have hsame := hmatch.1.1.1.1
    rw [hfields.turn_id hbefore, strictEq_str] at hsame
    rw [hsame, Option.some.injEq, Json.str.injEq] at howner
    exact hkept (howner ▸ hgone)

end Links

section Turns

variable {rt : Runtime} {now : Int} {namespaceId sessionId : Text} {tx : SessionTransaction Records}

variable (h : WellFormed rt namespaceId sessionId tx)
include h

theorem terminalTurnIds_nodup : (terminalTurnIds rt tx.rest.canonical).Nodup := by
  have hkeys : (tx.rest.canonical.turns.values.map fun turn : Json => (get turn "turn_id").text) =
      tx.rest.canonical.turns.keys := by
    rw [values, map_map]
    refine map_congr_left fun entry hentry => ?_
    show (get entry.2 "turn_id").text = entry.1
    rw [h.turn_id (get?_eq_some.mpr hentry)]
    rfl
  unfold terminalTurnIds
  rw [((perm_insertionSort _ _).map _).nodup_iff]
  refine List.Nodup.sublist (filter_sublist.map _) ?_
  rw [hkeys]
  exact tx.rest.canonical.turns.distinct

theorem status_of_mem_terminalTurnIds {turnId : Text}
    (hmem : turnId ∈ terminalTurnIds rt tx.rest.canonical) :
    (statusOf tx.rest.canonical.turns (some (.str turnId))).oneOf TERMINAL_STATUSES = true := by
  obtain ⟨turn, hturn, rfl⟩ := mem_map.mp hmem
  obtain ⟨hvalue, hstatus⟩ := mem_filter.mp ((mem_insertionSort _).mp hturn)
  obtain ⟨id, hid⟩ := mem_values.mp hvalue
  rw [h.turn_id hid]
  unfold statusOf
  rw [show text (some (.str (text (some (.str id))))) = id from rfl, hid]
  exact hstatus

theorem Dropped.terminal {turnId : Text} (hdropped : Dropped rt now tx turnId) :
    (statusOf tx.rest.canonical.turns (some (.str turnId))).oneOf TERMINAL_STATUSES = true ∧
      isPromotion tx.rest.canonical turnId = false := by
  obtain ⟨hterminal, hremovable⟩ := mem_filter.mp hdropped.mem
  simp only [isRemovable, Bool.and_eq_true, Bool.not_eq_true'] at hremovable
  exact ⟨status_of_mem_terminalTurnIds h hterminal, hremovable.1.2⟩

end Turns

/-- After expiry, the deletion of the turns that are dropped leaves the records valid exactly if
they keep their links. -/
theorem assertRecords_withoutTurns_iff {rt : Runtime} {now : Int} {namespaceId sessionId : Text}
    {tx : SessionTransaction Records}
    (hrecords : assertRecords rt namespaceId sessionId tx = true)
    (hgone : ∀ turnId, turnId ∈ gone ↔ Dropped rt now (expireRequests rt now tx) turnId) :
    assertRecords rt namespaceId sessionId (withoutTurns gone (expireRequests rt now tx)) = true ↔
      KeepsLinks rt now tx.rest.canonical tx.rest.requests
        (Dropped rt now (expireRequests rt now tx)) := by
  obtain ⟨hfields, hlinks⟩ := (assertRecords_iff rt namespaceId sessionId).mp hrecords
  have hdropped : ∀ turnId ∈ gone,
      (statusOf tx.rest.canonical.turns (some (.str turnId))).oneOf TERMINAL_STATUSES = true ∧
        isPromotion tx.rest.canonical turnId = false :=
    fun turnId hmem => Dropped.terminal (hfields.expireRequests now) ((hgone turnId).mp hmem)
  have hsame : Dropped rt now (expireRequests rt now tx) = (· ∈ gone) :=
    funext fun turnId => propext (hgone turnId).symm
  rw [assertRecords_iff, hsame]
  constructor
  · rintro ⟨-, hafter⟩
    exact keepsLinks_of_linked (fun turnId hmem => (hdropped turnId hmem).1) hafter
  · intro hkeeps
    refine ⟨(hfields.expireRequests now).deleteRecords _ _ _, ?_⟩
    exact linked_of_keepsLinks hfields hlinks (fun turnId hmem => (hdropped turnId hmem).1)
      (fun turnId hmem => (hdropped turnId hmem).2) hkeeps

def keepEvents (now : Int) (tx : SessionTransaction Records) : SessionTransaction Records :=
  { tx with outbox := tx.outbox.keep (retained tx.revision now) }

section Compacted

variable {rt : Runtime} {now : Int} {namespaceId sessionId : Text}
    {tx tx' : SessionTransaction Records}

/-- A compacted transaction is what retention leaves of it, without the turns that are dropped. -/
theorem exists_compactTransaction_eq
    (hvalid : assertTransaction (rt.env namespaceId sessionId) tx = true)
    (hfields : WellFormed rt namespaceId sessionId (keepEvents now tx))
    (hcompact : compactTransaction (rt.env namespaceId sessionId) now tx = .ok tx') :
    ∃ gone, tx' = withoutTurns gone (expireRequests rt now (keepEvents now tx)) ∧
      ∀ turnId, turnId ∈ gone ↔
        Dropped rt now (expireRequests rt now (keepEvents now tx)) turnId := by
  have hrest : (rt.env namespaceId sessionId).compactRest = compactRecords rt := by
    simp only [Runtime.env]
  unfold compactTransaction at hcompact
  rw [normalizeOutbox_eq hvalid, hrest] at hcompact
  cases hrecords : compactRecords rt now (keepEvents now tx) with
  | error message =>
    unfold keepEvents at hrecords
    simp only [hrecords, bind, bind] at hcompact
    cases hcompact
  | ok records =>
    have hafter := compactRecords_eq_ok hrecords
    unfold keepEvents at hrecords
    simp only [hrecords, bind, bind, pure, pure] at hcompact
    obtain ⟨gone, heq, hgone⟩ := @exists_deleteForSize_eq rt now
      (expireRequests rt now (keepEvents now tx))
        (terminalTurnIds_nodup (hfields.expireRequests now))
    rw [heq] at hafter
    refine ⟨gone, ?_, hgone⟩
    rw [← ok.inj hcompact, hafter]
    rfl

theorem assertOutbox_keep (test : OutboxEvent → Bool)
    (hvalid : assertTransaction (rt.env namespaceId sessionId) tx = true) :
    (!(tx.outbox.keep test).events.any (invalidOutbox tx.revision) &&
      decide ((tx.outbox.keep test).events.map (·.publicEventId)).Nodup) = true := by
  have hdistinct := publicEventIds_distinct hvalid
  simp only [assertTransaction, Bool.and_eq_true, Bool.not_eq_true'] at hvalid
  rw [Bool.and_eq_true, Bool.not_eq_true', decide_eq_true_eq]
  refine ⟨any_eq_false.mpr fun event hevent => ?_, ?_⟩
  · exact any_eq_false.mp hvalid.1.2 event (mem_of_mem_filter hevent)
  · exact hdistinct.sublist (filter_sublist.map _)

/-- A transaction that passes its assertions passes them after compaction exactly if the requests
that expire and the turns that are dropped leave no reference behind. -/
theorem assertTransaction_compactTransaction_iff
    (hvalid : assertTransaction (rt.env namespaceId sessionId) tx = true)
    (hcompact : compactTransaction (rt.env namespaceId sessionId) now tx = .ok tx') :
    assertTransaction (rt.env namespaceId sessionId) tx' = true ↔
      KeepsLinks rt now tx.rest.canonical tx.rest.requests
        (Dropped rt now (expireRequests rt now (keepEvents now tx))) := by
  have hrecords : assertRecords rt namespaceId sessionId (keepEvents now tx) = true := by
    simp only [assertTransaction, Bool.and_eq_true] at hvalid
    exact hvalid.1.1
  obtain ⟨gone, rfl, hgone⟩ := exists_compactTransaction_eq hvalid
    ((assertRecords_iff rt namespaceId sessionId).mp hrecords).1 hcompact
  have houtbox := assertOutbox_keep (retained tx.revision now) hvalid
  unfold assertTransaction
  rw [Bool.and_assoc, Bool.and_eq_true]
  exact (and_iff_left houtbox).trans (assertRecords_withoutTurns_iff hrecords hgone)

end Compacted

def record (fields : List (String × Json)) : Json :=
  .obj (fields.map fun field => (field.1.toList, field.2))

def string (text : String) : Json := .str text.toList

def number (n : Nat) : Json := .num (JsonNumber.ofNat n)

/-- `Date.parse` gives 1767225600000. -/
def newYear : String := "2026-01-01T00:00:00.000Z"

/-- `Date.parse` gives 1769817600000. -/
def lateJanuary : String := "2026-01-31T00:00:00.000Z"

def sampleRuntime : Runtime where
  parseDate := fun time =>
    if time = newYear.toList then some 1767225600000
    else if time = lateJanuary.toList then some 1769817600000
    else none
  digest := fun text => text
  localeCompare := fun a b => compareOfLessAndEq a b
  eventJson := fun event => .obj [("id".toList, .str event.id)]

def runningTurn : Json :=
  record [("schema_version", number 1), ("turn_id", string "turn-1"), ("session_id", string "s"),
    ("namespace_id", string "n"), ("status", string "active"),
    ("prompt", record [("text", string "go"), ("created_at", string newYear),
      ("source", string "mcp")]),
    ("delivery", record [("delivered", .bool true), ("queued", .bool false), ("target", .null),
      ("attempts", .arr []), ("prompt_acknowledged", .bool true), ("state", string "acknowledged"),
      ("runtime_command_id", string "c"), ("runtime_turn_id", string "r")]),
    ("runtime_provenance", .null), ("question_ids", .arr []),
    ("final_response", record [("text", .null), ("format", string "markdown"), ("source", .null),
      ("artifact_path", .null), ("truncated", .bool false)]),
    ("evidence", .arr []), ("error", .null), ("liveness", record []),
    ("created_at", string newYear), ("updated_at", string newYear), ("started_at", string newYear),
    ("completed_at", .null), ("terminal_fence", .null)]

def promptKey : Text := List.replicate 64 'a'

def acknowledgedPrompt (requestId : String) (key : Text) (time : String) : Json :=
  record [("request_id", string requestId), ("key_digest", .str key),
    ("request_digest", .str key), ("operation", string "turn.prompt"),
    ("canonical_prompt", record [("text", string "go")]), ("sdk_idempotency_key", string "i"),
    ("phase", string "completed"),
    ("runtime_receipt", record [("accepted", .bool true), ("command_id", string "c"),
      ("turn_id", string "r")]),
    ("coordinator_turn_id", string "turn-1"), ("created_at", string time),
    ("updated_at", string time)]

def longTurn : SessionTransaction Records where
  sessionId := "s".toList
  revision := 1
  outbox := .empty
  rest :=
    { schemaVersion := number 1
      creationIntentDigest := .str (List.replicate 64 '0')
      namespaceId := string "n"
      endpoint := .null
      canonical :=
        { session := record [("namespace_id", string "n"), ("session_id", string "s"),
            ("cwd", string "/"), ("created_at", string newYear), ("updated_at", string newYear),
            ("broker", record [("endpoint_incarnation", string "e"),
              ("sidecar_verifier", record [("key_id", .str (List.replicate 64 '0')),
                ("public_key", string "")])])]
          turns := ⟨[("turn-1".toList, runningTurn)], by simp⟩
          queue := record [("ordered_turn_ids", .arr []), ("active_turn_id", string "turn-1"),
            ("selected_promotion", .null)]
          desiredSessionState := string "running"
          reports := .empty
          gateAuthorities := .empty
          questions := .empty }
      requests := ⟨⟨[(promptKey, acknowledgedPrompt "prompt-1" promptKey newYear)], by simp⟩,
        .empty, .empty⟩
      projection := record []
      recovery := record [("prompt_watermark_at", .null), ("last_repaired_at", .null)] }

def sampleEnv : Env Records := sampleRuntime.env "n".toList "s".toList

/-- On the first of February the receipt of a turn that still runs is gone. -/
theorem compactTransaction_loses_receipt :
    assertTransaction sampleEnv longTurn = true ∧
      (compactTransaction sampleEnv 1769904000000 longTurn).map (assertTransaction sampleEnv) =
        .ok false := by
  decide +kernel

def followUpKey : Text := List.replicate 64 'b'

/-- The turn has a second prompt, of the last of January. -/
def followedTurn : SessionTransaction Records :=
  { longTurn with
    rest.requests.prompts :=
      ⟨[(promptKey, acknowledgedPrompt "prompt-1" promptKey newYear),
        (followUpKey, acknowledgedPrompt "prompt-2" followUpKey lateJanuary)], by decide⟩ }

def compactedTurn : SessionTransaction Records :=
  { followedTurn with
    rest.requests.prompts :=
      ⟨[(followUpKey, acknowledgedPrompt "prompt-2" followUpKey lateJanuary)], by decide⟩ }

theorem followedTurn_compacts :
    assertTransaction sampleEnv followedTurn = true ∧
      compactTransaction sampleEnv 1769904000000 followedTurn = .ok compactedTurn ∧
      assertTransaction sampleEnv compactedTurn = true := by
  decide +kernel

theorem keepsLinks_followedTurn :
    KeepsLinks sampleRuntime 1769904000000 followedTurn.rest.canonical followedTurn.rest.requests
      (Dropped sampleRuntime 1769904000000
        (expireRequests sampleRuntime 1769904000000 (keepEvents 1769904000000 followedTurn))) := by
  obtain ⟨hvalid, hcompact, hkept⟩ := followedTurn_compacts
  exact (assertTransaction_compactTransaction_iff hvalid hcompact).mp hkept

end Vibrato.Coordinator.Records
