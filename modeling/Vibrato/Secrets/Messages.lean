import Vibrato.Secrets.Coverage

/-! `obfuscateMessages` of `secrets/obfuscator.ts`, and which strings of its messages are free of
secrets. -/

namespace Vibrato.Secrets

open Lib SecretObfuscator List

/-- A tool-call argument; `scalar` is a number, a boolean or `null`. -/
inductive ArgumentValue where
  | scalar (text : Text)
  | string (text : Text)
  | array (items : List ArgumentValue)
  | object (fields : List (Text × ArgumentValue))

/-- A block of a message's content, with the strings it carries. -/
inductive ContentBlock where
  | text (text : Text) (textSignature : Option Text)
  | image (data mimeType : Text)
  | thinking (thinking : Text) (thinkingSignature : Option Text)
  | redactedThinking (data : Text)
  | toolCall (id name : Text) (arguments : List (Text × ArgumentValue))
      (thoughtSignature : Option Text)

inductive MessageContent where
  | string (text : Text)
  | blocks (blocks : List ContentBlock)

inductive Role where
  | user
  | developer
  | assistant
  | toolResult

/-- `fields` are the other strings of the message, such as the model or the tool's name. -/
structure ProviderMessage where
  role : Role
  content : MessageContent
  fields : List Text

open ProviderMessage

def obfuscateBlock (key : Key) (o : SecretObfuscator) :
    ContentBlock → SecretObfuscator × ContentBlock
  | .text text textSignature =>
    ((o.obfuscate key text).1, .text (o.obfuscate key text).2 textSignature)
  | block => (o, block)

def obfuscateBlocks (key : Key) (o : SecretObfuscator) :
    List ContentBlock → SecretObfuscator × List ContentBlock
  | [] => (o, [])
  | block :: blocks =>
    let (o, block) := obfuscateBlock key o block
    let (o, blocks) := obfuscateBlocks key o blocks
    (o, block :: blocks)

def obfuscateMessage (key : Key) (o : SecretObfuscator) (message : ProviderMessage) :
    SecretObfuscator × ProviderMessage :=
  match message.content with
  | .string _ => (o, message)
  | .blocks blocks =>
    let (o, blocks) := obfuscateBlocks key o blocks
    (o, { message with content := .blocks blocks })

def obfuscateMessages (key : Key) (o : SecretObfuscator) :
    List ProviderMessage → SecretObfuscator × List ProviderMessage
  | [] => (o, [])
  | message :: messages =>
    let (o, message) := obfuscateMessage key o message
    let (o, messages) := obfuscateMessages key o messages
    (o, message :: messages)

mutual

def ArgumentValue.strings : ArgumentValue → List Text
  | .scalar text => [text]
  | .string text => [text]
  | .array items => itemStrings items
  | .object fields => fieldStrings fields

def itemStrings : List ArgumentValue → List Text
  | [] => []
  | item :: items => item.strings ++ itemStrings items

def fieldStrings : List (Text × ArgumentValue) → List Text
  | [] => []
  | (name, value) :: fields => name :: value.strings ++ fieldStrings fields

end

namespace ContentBlock

def rewritten : ContentBlock → List Text
  | .text value _ => [value]
  | _ => []

def others : ContentBlock → List Text
  | .text _ textSignature => textSignature.toList
  | .image data mimeType => [data, mimeType]
  | .thinking value thinkingSignature => value :: thinkingSignature.toList
  | .redactedThinking data => [data]
  | .toolCall id name arguments thoughtSignature =>
    id :: name :: fieldStrings arguments ++ thoughtSignature.toList

end ContentBlock

namespace ProviderMessage

def rewritten (message : ProviderMessage) : List Text :=
  match message.content with
  | .string _ => []
  | .blocks blocks => blocks.flatMap ContentBlock.rewritten

/-- The strings outside text blocks: a content that is a string, signatures, thinking, tool calls,
and the fields. -/
def others (message : ProviderMessage) : List Text :=
  match message.content with
  | .string text => text :: message.fields
  | .blocks blocks => blocks.flatMap ContentBlock.others ++ message.fields

def strings (message : ProviderMessage) : List Text := message.rewritten ++ message.others

end ProviderMessage

variable (entries : List SecretEntry)

def IsPlainSecret (secret : Text) : Prop :=
  ∃ hne replacement, SecretEntry.plain secret hne .obfuscate replacement ∈ entries

def HasNoSecret (texts : List Text) : Prop :=
  ∀ text ∈ texts, ∀ secret, IsPlainSecret entries secret → ¬secret <:+: text

/-- What is inserted into a text makes no secret, nor do parts of it that come to stand side by
side: where a secret stands in what is sent, its characters stood in the text. -/
def FormsNoSecret (key : Key) (entries : List SecretEntry) (o : SecretObfuscator) (text : Text) :
    Prop :=
  ∀ secret, IsPlainSecret entries secret →
    ∀ occ, occ <:+: tracedPasses (o.passes key text) (mark text) →
    occ.map Prod.fst = secret → occ <:+: mark text

def FormNoSecrets (key : Key) (entries : List SecretEntry) : SecretObfuscator → List Text → Prop
  | _, [] => True
  | o, text :: texts =>
    FormsNoSecret key entries o text ∧ FormNoSecrets key entries (o.obfuscate key text).1 texts

section OneText

variable {key : Key} {entries : List SecretEntry} {o : SecretObfuscator}

theorem not_isInfix_mark (hwf : o.WellFormed key) {secret text : Text} (hknows : o.Knows secret)
    {occ : MarkedText} (hocc : occ <:+: tracedPasses (o.passes key text) (mark text))
    (hsecret : occ.map Prod.fst = secret) : ¬occ <:+: mark text := by
  rintro ⟨front, back, hplace⟩
  obtain ⟨m, hm, rfl⟩ := hknows
  have hstart : m.secret <+: text.drop front.length := by
    rw [← map_fst_mark text, ← hplace, append_assoc, ← map_drop, drop_left, map_append, hsecret]
    exact prefix_append _ _
  obtain ⟨mappings, hmappings, hmem⟩ := mem_plainPasses hm
  obtain ⟨i, hge, hlt, hgone⟩ := tracedPasses_meets (secret_ne_of_mem_passes hwf)
    (mem_append_left _ hmappings) hmem hstart
  have hlength : occ.length = m.secret.length := by rw [← hsecret, length_map]
  have hbound : i - front.length < occ.length := by omega
  have hat : (mark text)[i]? = some (occ[i - front.length]) := by
    rw [← hplace, append_assoc, getElem?_append_right hge, getElem?_append_left hbound,
      getElem?_eq_getElem hbound]
  have hposition : (occ[i - front.length]).2 = some i := by
    have hmark := getElem?_mark text i
    rw [hat] at hmark
    obtain ⟨c, -, heq⟩ := Option.map_eq_some_iff.1 hmark.symm
    rw [← heq]
  exact hgone (mem_map.2 ⟨_, hocc.subset (getElem_mem hbound), hposition⟩)

structure Ready (key : Key) (entries : List SecretEntry) (o : SecretObfuscator) : Prop where
  wellFormed : o.WellFormed key
  knows : ∀ secret, IsPlainSecret entries secret → o.Knows secret

theorem Ready.obfuscateAll (h : Ready key entries o) (texts : List Text) :
    Ready key entries (o.obfuscateAll key texts) :=
  ⟨h.wellFormed.obfuscateAll texts, fun secret hsecret =>
    (h.knows secret hsecret).obfuscateAll texts⟩

theorem ready_ofEntries (key : Key) (entries : List SecretEntry) (earlier : List Text) :
    Ready key entries ((ofEntries key entries).obfuscateAll key earlier) := by
  refine Ready.obfuscateAll ⟨ofEntries_wellFormed key entries, ?_⟩ earlier
  rintro secret ⟨hne, replacement, hmem⟩
  exact ofEntries_knows hmem

theorem Ready.hides_iff (h : Ready key entries o) (text : Text) :
    HasNoSecret entries [(o.obfuscate key text).2] ↔ FormsNoSecret key entries o text := by
  have hsent : (tracedPasses (o.passes key text) (mark text)).map Prod.fst =
      (o.obfuscate key text).2 := by
    rw [map_fst_tracedPasses, map_fst_mark, obfuscate_text h.wellFormed]
  constructor
  · intro hclean secret hsecret occ hocc hvalue
    refine absurd ?_ (hclean _ (mem_singleton_self _) secret hsecret)
    rw [← hsent, ← hvalue]
    exact hocc.map Prod.fst
  · intro hforms result hresult secret hsecret hinfix
    rw [mem_singleton.1 hresult, ← hsent] at hinfix
    obtain ⟨occ, hocc, rfl⟩ := infix_map_iff.1 hinfix
    exact not_isInfix_mark h.wellFormed (h.knows _ hsecret) hocc rfl (hforms _ hsecret occ hocc rfl)

end OneText

section Messages

variable {key : Key} {entries : List SecretEntry} {o : SecretObfuscator} {texts later : List Text}

theorem obfuscateAll_append (texts later : List Text) :
    o.obfuscateAll key (texts ++ later) = (o.obfuscateAll key texts).obfuscateAll key later :=
  foldl_append

theorem formNoSecrets_append :
    FormNoSecrets key entries o (texts ++ later) ↔ FormNoSecrets key entries o texts ∧
      FormNoSecrets key entries (o.obfuscateAll key texts) later := by
  induction texts generalizing o with
  | nil =>
    exact ⟨fun h => ⟨trivial, h⟩, fun h => h.2⟩
  | cons text texts ih =>
    rw [cons_append, FormNoSecrets, ih, FormNoSecrets, and_assoc]
    rfl

theorem hasNoSecret_append :
    HasNoSecret entries (texts ++ later) ↔ HasNoSecret entries texts ∧
      HasNoSecret entries later := by
  unfold HasNoSecret
  simp only [mem_append]
  constructor
  · intro h
    exact ⟨fun text htext => h text (.inl htext), fun text htext => h text (.inr htext)⟩
  · rintro ⟨hfirst, hlater⟩ text (htext | htext)
    · exact hfirst text htext
    · exact hlater text htext

structure Rewrites (key : Key) (entries : List SecretEntry) (o o' : SecretObfuscator)
    (texts others texts' others' : List Text) : Prop where
  state : o' = o.obfuscateAll key texts
  others : others' = others
  hides : HasNoSecret entries texts' ↔ FormNoSecrets key entries o texts

theorem Rewrites.append {o₁ o₂ o₃ : SecretObfuscator} {t₁ r₁ t₁' r₁' t₂ r₂ t₂' r₂' : List Text}
    (h₁ : Rewrites key entries o₁ o₂ t₁ r₁ t₁' r₁')
    (h₂ : Rewrites key entries o₂ o₃ t₂ r₂ t₂' r₂') :
    Rewrites key entries o₁ o₃ (t₁ ++ t₂) (r₁ ++ r₂) (t₁' ++ t₂') (r₁' ++ r₂') := by
  refine ⟨?_, ?_, ?_⟩
  · rw [obfuscateAll_append, ← h₁.state, h₂.state]
  · rw [h₁.others, h₂.others]
  · rw [hasNoSecret_append, formNoSecrets_append, ← h₁.state, h₁.hides, h₂.hides]

theorem Rewrites.refl (o : SecretObfuscator) (others : List Text) :
    Rewrites key entries o o [] others [] others :=
  ⟨rfl, rfl, fun _ => trivial, fun _ _ htext => (not_mem_nil htext).elim⟩

variable (h : Ready key entries o)
include h

theorem obfuscateBlock_rewrites (block : ContentBlock) :
    Rewrites key entries o (obfuscateBlock key o block).1 block.rewritten block.others
      (obfuscateBlock key o block).2.rewritten (obfuscateBlock key o block).2.others := by
  cases block with
  | text text textSignature =>
      exact ⟨rfl, rfl, (h.hides_iff text).trans (and_iff_left trivial).symm⟩
  | image data mimeType => exact .refl o _
  | thinking thinking thinkingSignature => exact .refl o _
  | redactedThinking data => exact .refl o _
  | toolCall id name arguments thoughtSignature => exact .refl o _

theorem obfuscateBlocks_rewrites (blocks : List ContentBlock) :
    Rewrites key entries o (obfuscateBlocks key o blocks).1 (blocks.flatMap ContentBlock.rewritten)
      (blocks.flatMap ContentBlock.others)
      ((obfuscateBlocks key o blocks).2.flatMap ContentBlock.rewritten)
      ((obfuscateBlocks key o blocks).2.flatMap ContentBlock.others) := by
  induction blocks generalizing o with
  | nil => exact .refl o _
  | cons block blocks ih =>
    have hblock := obfuscateBlock_rewrites h block
    have hready : Ready key entries (obfuscateBlock key o block).1 := by
      rw [hblock.state]
      exact h.obfuscateAll _
    exact hblock.append (ih hready)

theorem obfuscateMessage_rewrites (message : ProviderMessage) :
    Rewrites key entries o (obfuscateMessage key o message).1 message.rewritten message.others
      (obfuscateMessage key o message).2.rewritten (obfuscateMessage key o message).2.others := by
  obtain ⟨role, content, fields⟩ := message
  cases content with
  | string text => exact .refl o _
  | blocks blocks =>
    obtain ⟨hstate, hothers, hhides⟩ := obfuscateBlocks_rewrites h blocks
    exact ⟨hstate, congrArg (· ++ fields) hothers, hhides⟩

theorem obfuscateMessages_rewrites (messages : List ProviderMessage) :
    Rewrites key entries o (obfuscateMessages key o messages).1
      (messages.flatMap rewritten) (messages.flatMap others)
      ((obfuscateMessages key o messages).2.flatMap rewritten)
      ((obfuscateMessages key o messages).2.flatMap others) := by
  induction messages generalizing o with
  | nil => exact .refl o _
  | cons message messages ih =>
    have hmessage := obfuscateMessage_rewrites h message
    have hready : Ready key entries (obfuscateMessage key o message).1 := by
      rw [hmessage.state]
      exact h.obfuscateAll _
    exact hmessage.append (ih hready)

omit h

theorem hasNoSecret_strings {messages : List ProviderMessage} :
    HasNoSecret entries (messages.flatMap strings) ↔
      HasNoSecret entries (messages.flatMap rewritten) ∧
        HasNoSecret entries (messages.flatMap others) := by
  induction messages with
  | nil =>
    refine ⟨fun h => ⟨h, h⟩, fun h => h.1⟩
  | cons message messages ih =>
    simp only [flatMap_cons, hasNoSecret_append, ih, strings]
    tauto

end Messages

end Vibrato.Secrets
